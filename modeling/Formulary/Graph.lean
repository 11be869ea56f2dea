import Formulary.Text.Basic

/-! # Reference graphs

Each node is a definition with the names it refers to, in the order of insertion.
Names without a node of their own are kept in the lists and ignored otherwise.
-/

namespace Formulary

structure Graph where
  nodes : List (Text × List Text)
  deriving DecidableEq, Repr

namespace Graph

def empty : Graph := ⟨[]⟩

def contains (g : Graph) (x : Text) : Bool := g.nodes.any fun n => n.1 == x

def size (g : Graph) : Nat := g.nodes.length

def references (g : Graph) (x : Text) : List Text :=
  ((g.nodes.find? fun n => n.1 == x).map (·.2)).getD []

/-- Adds a node at the end, or replaces its references in place. -/
def insert (g : Graph) (x : Text) (refs : List Text) : Graph :=
  if g.contains x then ⟨g.nodes.map fun n => if n.1 == x then (x, refs) else n⟩
  else ⟨g.nodes ++ [(x, refs)]⟩

def erase (g : Graph) (x : Text) : Graph := ⟨g.nodes.filter fun n => n.1 != x⟩

/-- The nodes that refer to `x` themselves. -/
def users (g : Graph) (x : Text) : List Text :=
  (g.nodes.filter fun n => n.2.contains x).map (·.1)

/-- Adds to `found` what refers to the pending names; `fuel` bounds the names looked at. -/
def growUsers (g : Graph) : Nat → List Text → List Text → List Text
  | 0, found, _ => found
  | _, found, [] => found
  | fuel + 1, found, x :: pending =>
    let fresh := (Text.dedup (g.users x)).filter fun n => !found.contains n
    g.growUsers fuel (found ++ fresh) (fresh ++ pending)

/-- The nodes that refer to `x`, directly or through others. -/
def allUsers (g : Graph) (x : Text) : List Text := g.growUsers (g.size + 1) [] [x]

/-- Walks depth first from `x`. `path` leads to `x`, the last step first; `finished` nodes are on no
cycle. Ends with the cycle met first, or with more finished nodes. -/
def walk (g : Graph) : Nat → List Text → List Text → Text → Except (List Text) (List Text)
  | 0, _, finished, _ => .ok finished
  | fuel + 1, path, finished, x =>
    if path.contains x then .error (x :: (path.takeWhile (· != x)).reverse ++ [x])
    else if finished.contains x || !g.contains x then .ok finished
    else do
      let finished ← (g.references x).foldlM (fun seen y => g.walk fuel (x :: path) seen y) finished
      return x :: finished

/-- A cycle `a, b, …, a`, if there is one. -/
def cycle? (g : Graph) : Option (List Text) :=
  match (g.nodes.map (·.1)).foldlM (fun seen x => g.walk (g.size + 1) [] seen x) [] with
  | .error cycle => some cycle
  | .ok _ => none

/-- Gives `x` these references for as long as the search for a cycle takes. Then `x` gets back what
it had, or its node is taken away again. -/
def tryOut (g : Graph) (x : Text) (refs : List Text) : Option (List Text) × Graph :=
  let changed := g.insert x refs
  (changed.cycle?, match g.nodes.find? fun n => n.1 == x with
    | none => changed.erase x
    | some n => changed.insert x n.2)

/-- The cycle there would be if `x` had these references. -/
def probe (g : Graph) (x : Text) (refs : List Text) : Option (List Text) := (g.tryOut x refs).1

/-- Appends `x` to an order after everything it refers to. The first part marks nodes begun. -/
def place (g : Graph) : Nat → List Text × List Text → Text → List Text × List Text
  | 0, state, _ => state
  | fuel + 1, state, x =>
    if state.1.contains x || !g.contains x then state
    else
      let state := (g.references x).foldl (fun s y => g.place fuel s y) (x :: state.1, state.2)
      (state.1, state.2 ++ [x])

/-- Every node after the nodes it refers to, or a cycle. -/
def order (g : Graph) : Except (List Text) (List Text) :=
  match g.cycle? with
  | some cycle => .error cycle
  | none => .ok ((g.nodes.map (·.1)).foldl (fun s x => g.place (g.size + 1) s x) ([], [])).2

end Graph

end Formulary
