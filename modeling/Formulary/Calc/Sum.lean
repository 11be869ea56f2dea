import Formulary.Calc.Nature

/-! # Sums

The sum of a list of expressions: numbers add up, equal terms are collected with
their coefficients, and what has coefficient zero goes away without a look at it.
-/

namespace Formulary.Expr

/-- A term as its coefficient and the rest; a number has no rest. -/
def splitTerm : Expr → Scalar × Option Expr
  | .num s => (s, none)
  | .mul (.num s) r => (s, some r)
  | e => (.one, some e)

def withCoefficient (s : Scalar) (e : Expr) : Expr := if s = .one then e else .mul (.num s) e

/-- Adds a coefficient to the entry of a term, or a new entry at the end. -/
def collect (term : Expr) (s : Scalar) : List (Expr × Scalar) → List (Expr × Scalar)
  | [] => [(term, s)]
  | (t, c) :: rest => if t = term then (t, c.add s) :: rest else (t, c) :: collect term s rest

def isSum : Expr → Bool
  | .add .. => true
  | _ => false

def spreadTerms (es : List Expr) : List Expr :=
  es.filter (fun e => !isSum e) ++ (es.filter isSum).flatMap terms

def gatherTerms (es : List Expr) : Scalar × List (Expr × Scalar) :=
  (spreadTerms es).foldl (fun (total, entries) e =>
    match splitTerm e with
    | (s, none) => (total.add s, entries)
    | (s, some r) => (total, collect r s entries)) (.zero, [])

/-- Does an infinite total swallow a term? Constants do not count beside it, and no more does what
is real and finite or does not work against it. -/
def isSwallowed (total : Scalar) (e : Expr) : Bool :=
  let n := nature e
  isConstant e || n.isReal &&
    (n.isFinite || match total with
      | .infinite negative => if negative then n.notPos else n.notNeg
      | _ => false)

def besideTotal (total : Scalar) (es : List Expr) : List Expr :=
  if total.isFinite then es else es.filter fun e => !isSwallowed total e

def buildSum (total : Scalar) (entries : List (Expr × Scalar)) : Expr :=
  if total = .undefined || entries.any (fun t => t.2 == .undefined) then undefined
  else
    let kept := (entries.filter fun t => !t.2.isZero).map fun t => withCoefficient t.2 t.1
    let members := inOrder (besideTotal total kept)
    if members.contains interval then interval
    else addChain (if total = .zero then members else .num total :: members)

def sum (es : List Expr) : Expr :=
  match firstFault? es with
  | some f => .failed f
  | none =>
    let (total, entries) := gatherTerms es
    buildSum total entries

def scaleTerm (s : Scalar) (e : Expr) : Expr :=
  match splitTerm e with
  | (c, none) => .num (s.mul c)
  | (c, some r) => withCoefficient (s.mul c) r

/-- A finite number times an expression; it goes into the terms of a sum. -/
def timesScalar (s : Scalar) (e : Expr) : Expr :=
  match e with
  | .failed f => .failed f
  | .num t => .num (s.mul t)
  | e =>
    if s.isZero then zero
    else match e with
    | .interval => .interval
    | .add .. => sum ((terms e).map (scaleTerm s))
    | e => scaleTerm s e

def negate (e : Expr) : Expr := timesScalar .minusOne e

def difference (a b : Expr) : Expr := sum [a, negate b]

end Formulary.Expr
