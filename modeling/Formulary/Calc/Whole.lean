import Formulary.Calc.Logarithm
import Formulary.Calc.Size

/-! # Whole parts

Floors and ceilings. Terms that are whole come out, rounded whole numbers as exact
ones; constants are worked out where no symbols stand beside them.
-/

namespace Formulary.Expr

def isFloored : Expr → Bool
  | .fn .floor _ | .fn .ceil _ => true
  | _ => false

/-- A floor or a ceiling, or the negative of one. -/
def isWholePart : Expr → Bool
  | .mul (.num (.exact q)) e => q = -1 && isFloored e
  | e => isFloored e

def floorConstant (z : Complex) (a : Expr) : Expr :=
  if z.re.top > 2 * decisionBits then a
  else
    let f := z.floor decisionBits
    sum [ofInt f.re.floor, product [ofInt f.im.floor, .const .i]]

def wholeScalar? : Scalar → Option Expr
  | .exact q => if q.den = 1 then some (ofRat q) else none
  | .rounded p x =>
    if !(Scalar.rounded p x).isFar && x.isInteger then some (ofInt x.floor) else none
  | _ => none

/-- What a term adds to the whole part outside. -/
def wholeTerm? (t : Expr) : Option Expr :=
  match t with
  | .num s => wholeScalar? s
  | t =>
    if (nature t).isWhole then some t
    else
      match splitTerm t with
      | (s, some (.const .i)) => (wholeScalar? s).map imaginary
      | _ => none

/-- The whole part `f` of a sum: its whole terms, and what `f` leaves standing of the others. -/
def wholeOfTerms (f : Fn) (ofConstant : Expr → Expr) (ts : List Expr) : Expr :=
  let whole := ts.filterMap wholeTerm?
  let rest := ts.filter fun t => (wholeTerm? t).isNone
  let left := sum rest
  if rest.isEmpty then sum whole
  else if rest.all isConstant then sum (whole ++ [ofConstant left])
  else sum (whole ++ [if isFloored left then left else .fn f left])

def floorOfConstant (a : Expr) : Expr :=
  match a.value? with
  | some z => floorConstant z a
  | none => .fn .floor a

def floor (a : Expr) : Expr :=
  match a with
  | .failed _ | .interval => a
  | .num s => .num ((s.floor?).getD s)
  | a =>
    if isWholePart a || (nature a).isWhole then a
    else wholeOfTerms .floor floorOfConstant (terms a)

def ceil (a : Expr) : Expr :=
  match a with
  | .failed _ | .interval => a
  | .num s => negate (floor (.num s.neg))
  | a =>
    if isWholePart a || (nature a).isWhole then a
    else wholeOfTerms .ceil (fun c => negate (floorOfConstant (negate c))) (terms a)

def nearest (a : Expr) : Expr := floor (sum [a, half])

/-! ## Factorials

Factorials of whole numbers are written out up to a limit; those of rounded
numbers are rounded. The product of every second number is only taken exactly.
-/

def factorialLimit : Nat := 20000

/-- The product of `n`, `n - step`, … down to one. -/
def descend (step : Nat) : Nat → Nat → Nat
  | 0, _ => 1
  | fuel + 1, n => if n ≤ 1 then 1 else n * descend step fuel (n - step)

def factorial (a : Expr) : Expr :=
  match a with
  | .failed _ | .interval => a
  | .num (.exact q) =>
    if q.den ≠ 1 then .fn .factorial a
    else if q < 0 then pole
    else if q.num.natAbs ≤ factorialLimit then ofInt (descend 1 q.num.natAbs q.num.natAbs)
    else roundedFn .factorial Scalar.doubleBits (.ofInt q.num)
  | .num (.rounded p x) =>
    if x.isZero then one
    else if x.isNeg && x.isInteger then .failed .factorialPole
    else roundedFn .factorial p x
  | .num (.infinite false) => a
  | .num .undefined => a
  | a => .fn .factorial a

/-- The product of every second number; below zero only odd numbers have one. -/
def doubleFactorial (a : Expr) : Expr :=
  match a with
  | .failed _ | .interval => a
  | .num .pole => .fn .doubleFactorial a
  | .num s =>
    match s.int? with
    | none => .failed .noDoubleFactorial
    | some n =>
      if 0 ≤ n then ofInt (descend 2 n.natAbs n.natAbs)
      else if n % 2 = 0 then .failed .noDoubleFactorial
      else
        let signed := if (1 - n) / 2 % 2 = 0 then n else -n
        ofRat (mkRat signed (descend 2 n.natAbs n.natAbs))
  | a => .fn .doubleFactorial a

end Formulary.Expr
