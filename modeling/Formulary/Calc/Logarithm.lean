import Formulary.Calc.Angle

/-! # Logarithms

The natural logarithm and logarithms to a base. Signs and the imaginary unit come
out of constants, a real exponent out of a power of `e`, and powers of the base
out of a fraction.
-/

namespace Formulary.Expr

def infinity (negative : Bool) : Expr := .num (.infinite negative)

def roundedFn (f : Fn) (p : Nat) (x : Binary) : Expr :=
  match approxFn (p + Scalar.guardBits) f (.ofReal x) with
  | some z =>
    let w := p + Scalar.roundingBits
    ofComplex p ⟨z.re.round w, z.im.round w⟩
  | none => pole

def halfPi : Expr := piTimes (1 / 2)

def imaginaryTerms? (a : Expr) : Option (List Expr) :=
  (terms a).mapM fun t => (without? (.const .i) (factors t)).map fun fs => product fs

/-- The `x` of `i x`, in which the imaginary unit does not stand again. -/
def imaginaryFactor? (a : Expr) : Option Expr := do
  let x := sum (← imaginaryTerms? a)
  if mentions .i x then none else some x

/-- The number `c` of `c i`. -/
def imaginaryPart? (a : Expr) : Option Rat :=
  match splitTerm a with
  | (.exact q, some r) => if r = .const .i then some q else none
  | _ => none

/-- A real constant minus the whole periods in it. -/
def withinPeriod? (period a : Expr) : Option Expr := do
  let x ← realValue? a
  let p ← realValue? period
  let k := (Binary.div decisionBits x p).floor
  return difference a (product [ofInt k, period])

def isAbove (a b : Expr) : Bool := sign? (difference a b) == some 1

/-- The logarithm of `e ^ t` for a constant `t`: the imaginary part goes into one turn. -/
def logOfExp? (t : Expr) : Option Expr := do
  let (rotation, growth) := (terms t).partition fun u => mentions .i u
  let angle ← imaginaryFactor? (sum rotation)
  let turned ← withinPeriod? (piTimes 2) angle
  let reduced := if isAbove turned pi then difference turned (piTimes 2) else turned
  if growth.all fun u => (realValue? u).isSome then
    return sum (growth ++ [imaginary reduced])
  else none

def logFraction (q : Rat) : Expr :=
  if q = 1 then zero
  else if q.num = 1 then negate (.fn .log (ofInt q.den))
  else .fn .log (ofRat q)

def log (a : Expr) : Expr :=
  match a with
  | .failed _ | .interval => a
  | .num (.exact q) =>
    if q = 0 then pole
    else if q < 0 then sum [logFraction (-q), imaginary pi]
    else logFraction q
  | .num (.rounded p x) =>
    if x.isZero then pole
    else
      let size := Expr.num (.settleTwice p (Elementary.log (p + Scalar.guardBits) x.abs))
      if x.isNeg then sum [size, imaginary pi] else size
  | .num (.infinite _) => infinity false
  | .num s => .num s
  | .const .e => one
  | .pow (.const .e) t =>
    if (nature t).isReal then t
    else if isConstant t then (logOfExp? t).getD (.fn .log a)
    else .fn .log a
  | a =>
    match imaginaryPart? a with
    | some q =>
      if q < 0 then difference (logFraction (-q)) (imaginary halfPi)
      else sum [logFraction q, imaginary halfPi]
    | none =>
      if sign? a = some (-1) then sum [.fn .log (negate a), imaginary pi] else .fn .log a

def dividesTimes (p : Nat) (n : Nat) : Nat := (Radical.removeDivisor p (bitLength n) n 0).1

def multiplicity? (base arg : Rat) : Option Int :=
  let times (p : Nat) (n : Int) : Int := dividesTimes p n.natAbs
  if arg = 0 || base ≤ 0 || base = 1 then none
  else if base.den = 1 then
    some (if arg.num = 1 then -times base.num.natAbs arg.den
      else times base.num.natAbs arg.num - times base.num.natAbs arg.den)
  else if base.num = 1 then some (times base.den arg.den)
  else
    let like := min (times base.num.natAbs arg.num) (times base.den arg.den)
    let cross := min (times base.den arg.num) (times base.num.natAbs arg.den)
    some (like - cross)

/-- The logarithm to a base; powers of the base in a fraction come out exactly. -/
def logBase (a base : Expr) : Expr :=
  if base = one then if a = one then undefined else pole
  else if base = .const .e then log a
  else
    let plain := quotient (log a) (log base)
    match a, base with
    | .num (.exact q), .num (.exact b) =>
      match multiplicity? b q with
      | some n =>
        if n = 0 then plain
        else sum [ofInt n, quotient (log (quotient a (power base (ofInt n)))) (log base)]
      | none => plain
    | _, _ => plain

end Formulary.Expr
