import Formulary.Calc.Expr

/-! # Numeric values

The value of a constant expression as a complex number with many bits. Where an
operation has no value, or a symbol or a name without meaning is left, there is
none. Parts of a sum that cancel almost wholly count as zero.
-/

namespace Formulary

namespace Complex

def cleanPart (p : Nat) (size : Int) (x : Binary) : Binary :=
  if x.top < size - (p - 32 : Nat) then Binary.zero else x

def largestTop (xs : List Binary) : Int :=
  (xs.filter fun x => !x.isZero).foldl (fun t x => max t x.top) (-((1 : Int) <<< (60 : Nat)))

def cleanAdd (p : Nat) (z w : Complex) : Complex :=
  let s := add p z w
  ⟨cleanPart p (largestTop [z.re, w.re]) s.re, cleanPart p (largestTop [z.im, w.im]) s.im⟩

/-- Drops the part that is far below the other. -/
def clean (p : Nat) (z : Complex) : Complex :=
  let size := largestTop [z.re, z.im]
  ⟨cleanPart p size z.re, cleanPart p size z.im⟩

/-- The whole number next to a real, if the two can hardly be told apart; else the floor. -/
def floorReal (p : Nat) (x : Binary) : Binary :=
  if x.top > (2 * p : Nat) then x
  else
    let n := (Binary.add (4 * p) x Binary.half).floor
    let d := Binary.addExact x (Binary.ofInt (-n))
    if d.isZero || d.top < -(p / 2 : Nat) then Binary.ofInt n else Binary.ofInt x.floor

def floor (p : Nat) (z : Complex) : Complex := ⟨floorReal p z.re, floorReal p z.im⟩

def real? (z : Complex) : Option Binary := if z.isReal then some z.re else none

end Complex

namespace Expr

open Formulary.Complex (ofReal)

def unlessZero (z w : Complex) : Option Complex := if z.isZero then none else some w

def approxFactorial (p : Nat) (z : Complex) : Option Complex :=
  if z.isReal && z.re.isNeg && z.re.isInteger then none
  else some (Complex.gamma p ⟨Binary.addExact z.re Binary.one, z.im⟩)

/-- `z ^ w`; a zero has powers where the exponent is above zero. -/
def approxPow (p : Nat) (z w : Complex) : Option Complex :=
  if z.isZero then if w.re.isNeg || w.re.isZero then none else some z
  else some ((Complex.pow p z w).clean p)

def approxFn (p : Nat) (f : Fn) (z : Complex) : Option Complex :=
  match f with
  | .sin => some (z.sin p)
  | .cos => some (z.cos p)
  | .tan => unlessZero (z.cos p) (z.tan p)
  | .sec => unlessZero (z.cos p) ((z.cos p).inv p)
  | .csc => unlessZero (z.sin p) ((z.sin p).inv p)
  | .cot => unlessZero (z.sin p) (Complex.div p (z.cos p) (z.sin p))
  | .asin => some ((z.asin p).clean p)
  | .acos => some ((z.acos p).clean p)
  | .atan => if (Complex.add p (Complex.mul p z z) .unit).isZero then none else some (z.atan p)
  | .sinh => some (z.sinh p)
  | .cosh => some (z.cosh p)
  | .tanh => some (z.tanh p)
  | .coth => unlessZero (z.sinh p) (Complex.div p (z.cosh p) (z.sinh p))
  | .asinh => some ((z.asinh p).clean p)
  | .acosh => some ((z.acosh p).clean p)
  | .atanh =>
    if (Complex.sub p (Complex.mul p z z) .unit).isZero then none else some ((z.atanh p).clean p)
  | .abs => some (ofReal (z.abs p))
  | .sign =>
    if z.isZero then some z
    else if z.isReal then some (ofReal (Binary.ofInt (if z.re.isNeg then -1 else 1)))
    else some (Complex.div p z (ofReal (z.abs p)))
  | .floor => some (z.floor p)
  | .ceil => some ((z.neg.floor p).neg)
  | .log => unlessZero z ((z.log p).clean p)
  | .factorial => approxFactorial p z
  | .doubleFactorial => none

def approxFn2 (p : Nat) (f : Fn2) (z w : Complex) : Option Complex :=
  match f with
  | .atan2 => do
    let y ← z.real?
    let x ← w.real?
    if x.isZero && y.isZero then none else some (ofReal (Elementary.atan2 p y x))
  | .mod =>
    if w.isZero then none
    else some (Complex.cleanAdd p z (Complex.mul p w ((Complex.div p z w).floor p)).neg)
  | .min => do
    let x ← z.real?
    let y ← w.real?
    some (ofReal (if Binary.le x y then x else y))
  | .max => do
    let x ← z.real?
    let y ← w.real?
    some (ofReal (if Binary.le x y then y else x))

/-- The value with about `p` bits. -/
def approx (p : Nat) : Expr → Option Complex
  | .num (.exact q) => some (ofReal (if q.den = 1 then .ofInt q.num else .ofRat p q))
  | .num (.rounded _ x) => some (ofReal x)
  | .num _ => none
  | .const .pi => some (ofReal (Elementary.pi p))
  | .const .e => some (ofReal (Elementary.exp p Binary.one))
  | .const .i => some Complex.imaginaryUnit
  | .add a b => do return Complex.cleanAdd p (← approx p a) (← approx p b)
  | .mul a b => do return Complex.mul p (← approx p a) (← approx p b)
  | .pow (.const .e) b => do return Complex.exp p (← approx p b)
  | .pow a b => do approxPow p (← approx p a) (← approx p b)
  | .fn f a => do approxFn p f (← approx p a)
  | .fn2 f a b => do approxFn2 p f (← approx p a) (← approx p b)
  | .sym _ | .pair .. | .unknown .. | .interval | .failed _ => none

def decisionBits : Nat := 256

def value? (e : Expr) : Option Complex := approx decisionBits e

def realValue? (e : Expr) : Option Binary :=
  if e.isConstant then e.value?.bind Complex.real? else none

def sign? (e : Expr) : Option Int :=
  match e with
  | .num (.infinite s) => some (if s then -1 else 1)
  | _ => e.realValue?.map fun x => x.mant.sign

end Expr

end Formulary
