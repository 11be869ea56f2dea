import Formulary.Calc.Size

/-! # Extremes

The greatest and the least of a list. A member gives way to another where their
difference has a known sign; an extreme of the other kind gives way where one of
its members stands beside it, and what several of them share is brought out.
-/

namespace Formulary.Expr

def extremeMembers (f : Fn2) : Expr → List Expr
  | .fn2 g a b => if f = g then extremeMembers f a ++ extremeMembers f b else [.fn2 g a b]
  | e => [e]

def opposite (f : Fn2) : Fn2 := if f = .max then .min else .max

def isExtreme (f : Fn2) : Expr → Bool
  | .fn2 g _ _ => f = g
  | _ => false

/-- The extreme of nothing, which any member replaces. -/
def weakest (f : Fn2) : Expr := infinity (f == .max)

def strongest (f : Fn2) : Expr := infinity (f != .max)

def extremeChain (f : Fn2) (es : List Expr) : Expr :=
  let (constants, others) := es.partition isConstant
  chain (.fn2 f) (weakest f) (constants ++ inOrder others)

def isComparable (e : Expr) : Bool :=
  match e with
  | .num (.infinite _) => true
  | .interval => false
  | e => !e.isConstant || (realValue? e).isSome

/-- Does `a` reach at least as far as `b`, as far as known? -/
def reaches? (f : Fn2) (a b : Expr) : Option Bool :=
  let order : Option Ordering := match a, b with
    | .num s, .num t => s.compare? t
    | a, b =>
      let n := nature (difference a b)
      if n.isReal && n.notNeg then some .gt else if n.isReal && n.notPos then some .lt else none
  order.map fun o => if f = .max then o != .lt else o != .gt

/-! ### Members that say nothing -/

/-- The most extreme number among members and inside them. -/
def boundOf? (f : Fn2) (es : List Expr) : Option Expr :=
  let heads := es.filterMap fun e => match e with
    | .fn2 g a _ => if f = g && isConstant a then some a else none
    | e => if isConstant e then some e else none
  match heads with
  | [] => none
  | c :: cs => some (cs.foldl (fun b e => if reaches? f b e = some false then e else b) c)

/-- Drops members of the other kind that a number among them keeps from mattering. -/
def dropBounded (f : Fn2) (es : List Expr) : List Expr :=
  if !es.any isConstant then es
  else
    match boundOf? f es with
    | none => es
    | some bound => es.filter fun e =>
      match e with
      | .fn2 g a _ => !(g = opposite f && isConstant a && sign? (difference a bound) ==
          some (if f = .max then -1 else 1))
      | _ => true

/-- An extreme inside another, beside the member `m` outside; the first argument bounds the
depth. -/
def absorb (f : Fn2) (m : Expr) : Nat → Expr → Expr
  | 0, e => e
  | n + 1, e =>
    match e with
    | .fn2 g a b =>
      if g != .max && g != .min then e
      else
        let inner := extremeMembers g (.fn2 g a b)
        if !inner.contains m then extremeChain g (inner.map (absorb f m n))
        else if g = f then extremeChain g ((inner.filter (· != m)).map (absorb f m n))
        else m
    | e => e

/-- Every member acts on the extremes after it. -/
def absorbAll (f : Fn2) : Nat → List Expr → List Expr
  | 0, es => es
  | _, [] => []
  | n + 1, e :: es => e :: absorbAll f n (es.map fun x => absorb f e (size x) x)

/-- Brings out what all members of the other kind share. -/
def bringOut (f : Fn2) (es : List Expr) : List Expr :=
  let g := opposite f
  let (others, rest) := es.partition (isExtreme g)
  match others.map (extremeMembers g) with
  | [] => es
  | s :: ss =>
    let shared := s.filter fun e => ss.all fun t => t.contains e
    if shared.isEmpty then es
    else
      let left := (s :: ss).map fun t => t.filter fun e => !shared.contains e
      let inner := if left.any List.isEmpty then []
        else [extremeChain f (left.map (extremeChain g))]
      rest ++ [extremeChain g (shared ++ inner)]

/-! ### The extreme of a list -/

/-- Puts a member among those kept: it takes the place of those that it reaches. -/
def keepFarthest (f : Fn2) (kept : List Expr) (e : Expr) : List Expr :=
  let judged := kept.map fun k => (k, if k = e then some true else reaches? f e k)
  if judged.all fun j => j.2.isNone then kept ++ [e]
  else if judged.any fun j => j.2 = some true then
    (judged.filter fun j => j.2 != some true).map (·.1) ++ [e]
  else kept

def farthest (f : Fn2) (es : List Expr) : Expr :=
  let members := sortByRank rankOf (es.eraseDups)
  let reduced := absorbAll f members.length (dropBounded f members)
  let shared := if 1 < reduced.length then bringOut f reduced else reduced
  extremeChain f (shared.foldl (keepFarthest f) [])

/-- The first member that settles the outcome by itself. -/
def decisive? (f : Fn2) (es : List Expr) : Option Expr :=
  es.findSome? fun e =>
    if !isComparable e then some (.failed .notComparable)
    else if e = strongest f then some e
    else none

/-- The greatest or the least of a list; the extreme of nothing is infinite. -/
def extreme (f : Fn2) (es : List Expr) : Expr :=
  match firstFault? es with
  | some e => .failed e
  | none =>
    match decisive? f es with
    | some e => e
    | none => farthest f ((es.flatMap (extremeMembers f)).filter fun e => e != weakest f)

end Formulary.Expr
