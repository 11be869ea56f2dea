import Formulary.Sheet.Parameter

/-! # The definition book

Functions by name, and plots that have an id only. What a definition depends on
and calls is kept as it was found when it was stored.
-/

namespace Formulary

structure Definition where
  id : Text
  name : Name
  kind : HeadKind
  formals : List Name
  rhs : Text
  source : Text := []
  dependencies : List Name := []
  calls : List Name := []
  independent : Option Name := none
  visible : Bool := true
  deriving DecidableEq, Repr

namespace Definition

def isAnonymous (d : Definition) : Bool := d.kind == .anonymous

def arity (d : Definition) : Nat := d.formals.length

def inputs (d : Definition) : List Name :=
  if d.formals.isEmpty then d.independent.toList else d.formals

def signature (d : Definition) : Text :=
  if d.isAnonymous then plotName
  else if d.formals.isEmpty then d.name
  else d.name ++ text "(" ++ BindError.commas d.formals ++ text ")"

def node (d : Definition) : Text := if d.isAnonymous then d.id else d.name

end Definition

structure DefinitionBook where
  entries : List Definition
  nextId : Nat
  deriving DecidableEq, Repr

namespace DefinitionBook

def empty : DefinitionBook := ⟨[], 1⟩

def find? (b : DefinitionBook) (name : Name) : Option Definition :=
  b.entries.find? fun d => !d.isAnonymous && d.name == name

def get? (b : DefinitionBook) (id : Text) : Option Definition := b.entries.find? fun d => d.id == id

/-- By name, else by id. -/
def lookup? (b : DefinitionBook) (key : Text) : Option Definition := (b.find? key).or (b.get? key)

def contains (b : DefinitionBook) (name : Name) : Bool := (b.find? name).isSome

def named (b : DefinitionBook) : List Definition := b.entries.filter fun d => !d.isAnonymous

def names (b : DefinitionBook) : List Name := b.named.map Definition.name

def idFor (anonymous : Bool) (n : Nat) : Text :=
  (if anonymous then text "plot-" else text "func-") ++ Text.ofNat n

def newId (b : DefinitionBook) (anonymous : Bool) : Text × DefinitionBook :=
  (idFor anonymous b.nextId, { b with nextId := b.nextId + 1 })

def put (d : Definition) : List Definition → List Definition
  | [] => [d]
  | q :: rest => if q.id = d.id then d :: rest else q :: put d rest

def add (b : DefinitionBook) (d : Definition) : Except SheetError DefinitionBook :=
  if !d.isAnonymous && b.contains d.name then .error (.functionExists d.name)
  else .ok { b with entries := put d b.entries }

def replace (b : DefinitionBook) (d : Definition) : DefinitionBook :=
  { b with entries := put d b.entries }

def remove (b : DefinitionBook) (id : Text) : DefinitionBook :=
  { b with entries := b.entries.filter fun d => d.id != id }

def clear (b : DefinitionBook) : DefinitionBook := { b with entries := [] }

def setKey {β : Type} (key : Name) (v : β) : List (Name × β) → List (Name × β)
  | [] => [(key, v)]
  | (k, w) :: rest => if k = key then (k, v) :: rest else (k, w) :: setKey key v rest

def arities (b : DefinitionBook) : Formula.Arities :=
  b.named.foldl (fun s d => setKey d.name d.arity s) []

/-- The functions as the evaluator wants them: formals and right-hand side by name. -/
def table (b : DefinitionBook) : List (Name × List Name × Text) :=
  b.named.foldl (fun s d => setKey d.name (d.formals, d.rhs) s) []

/-! ### Saving -/

def optional : Option Text → Json
  | some t => .str t
  | none => .null

def saveEntry (d : Definition) : Json :=
  .obj [(text "id", .str d.id), (text "name", .str d.name), (text "kind", .str d.kind.label),
    (text "formal_params", Json.strings d.formals), (text "rhs", .str d.rhs),
    (text "source", .str d.source), (text "dependencies", Json.strings d.dependencies),
    (text "calls", Json.strings d.calls), (text "independent_variable", optional d.independent),
    (text "visible", .bool d.visible)]

def save (b : DefinitionBook) : List Json := b.entries.map saveEntry

def savedKeys : List Text :=
  ["id", "name", "kind", "formal_params", "rhs", "source", "dependencies", "calls",
   "independent_variable", "visible", "created"].map text

def kindOf (t : Text) : HeadKind :=
  if t = text "anonymous" then .anonymous
  else if t = text "parameter" then .parameter
  else .function

def texts? : Option Json → Option (List Text)
  | none => some []
  | some (.arr items) => items.mapM ParameterBook.text?
  | _ => none

def visibleOf : Option Json → Bool
  | some (.bool b) => b
  | _ => true

def entry? (j : Json) : Option Definition :=
  match j with
  | .obj ms =>
    if ms.all fun m => savedKeys.contains m.1 then do
      let id ← (j.get? "id").bind ParameterBook.text?
      let name ← (j.get? "name").bind ParameterBook.text?
      let kind ← (j.get? "kind").bind ParameterBook.text?
      let rhs ← (j.get? "rhs").bind ParameterBook.text?
      let formals ← texts? (j.get? "formal_params")
      let dependencies ← texts? (j.get? "dependencies")
      let calls ← texts? (j.get? "calls")
      return {
        id, name, rhs, formals, dependencies, calls
        kind := kindOf kind
        source := ((j.get? "source").bind ParameterBook.text?).getD []
        independent := (j.present? "independent_variable").bind ParameterBook.text?
        visible := visibleOf (j.get? "visible") }
    else none
  | _ => none

/-- Takes in saved entries one by one and stops at the first that cannot be read. -/
def loadEntries (b : DefinitionBook) : List Json → DefinitionBook × Option LoadError
  | [] => (b, none)
  | j :: rest =>
    match entry? j with
    | none => (b, some .badEntry)
    | some d =>
      let b := { b with entries := put d b.entries }
      match SavedId.counterAfter d.id with
      | .error e => (b, some e)
      | .ok n => loadEntries { b with nextId := max b.nextId n } rest

/-- Replaces the entries by saved ones; the id counter never goes back. -/
def load (b : DefinitionBook) (items : List Json) : DefinitionBook × Option LoadError :=
  b.clear.loadEntries items

end DefinitionBook

end Formulary
