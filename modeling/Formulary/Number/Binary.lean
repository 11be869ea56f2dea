/-! # Scaled integers

A number `mant * 2 ^ exp` with no bound on either part. Sums, products and
quotients round to a given count of significant bits, to nearest with ties to
even; every other operation is exact.
-/

namespace Formulary

def bitLength (n : Nat) : Nat := if n = 0 then 0 else n.log2 + 1

def shiftRound (n k : Nat) (more : Bool) : Nat :=
  if k = 0 then n
  else
    let q := n >>> k
    let r := n - (q <<< k)
    let half := 1 <<< (k - 1)
    if r > half || (r = half && (more || q % 2 = 1)) then q + 1 else q

def divRound (n d : Nat) : Nat :=
  let q := n / d
  let r := n % d
  if 2 * r > d || (2 * r = d && q % 2 = 1) then q + 1 else q

/-- One step of the integer square root: the estimate falls until it is the floor. -/
def sqrtStep (n : Nat) : Nat → Nat → Nat
  | 0, x => x
  | fuel + 1, x =>
    let y := (x + n / x) / 2
    if y < x then sqrtStep n fuel y else x

def natSqrt (n : Nat) : Nat :=
  if n = 0 then 0 else sqrtStep n (2 * bitLength n + 8) (1 <<< ((bitLength n + 1) / 2))

structure Binary where
  mant : Int
  exp : Int
  deriving DecidableEq, Repr

namespace Binary

def zero : Binary := ⟨0, 0⟩
def one : Binary := ⟨1, 0⟩
def ofInt (n : Int) : Binary := ⟨n, 0⟩
def half : Binary := ⟨1, -1⟩

def isZero (x : Binary) : Bool := x.mant == 0
def isNeg (x : Binary) : Bool := x.mant < 0
def neg (x : Binary) : Binary := ⟨-x.mant, x.exp⟩
def abs (x : Binary) : Binary := ⟨x.mant.natAbs, x.exp⟩
def scale (x : Binary) (k : Int) : Binary := ⟨x.mant, x.exp + k⟩

/-- The number is below `2 ^ top` and not below `2 ^ (top - 1)` in size. -/
def top (x : Binary) : Int := x.exp + bitLength x.mant.natAbs

def withSign (negative : Bool) (n : Nat) (e : Int) : Binary := ⟨if negative then -n else n, e⟩

def round (p : Nat) (x : Binary) : Binary :=
  let n := x.mant.natAbs
  let b := bitLength n
  if n = 0 then zero
  else if b ≤ p then x
  else withSign x.isNeg (shiftRound n (b - p) false) (x.exp + (b - p : Nat))

/-- Trailing zero bits moved from the mantissa into the exponent. -/
def trimFrom : Nat → Nat → Int → Nat × Int
  | 0, n, e => (n, e)
  | fuel + 1, n, e => if n % 2 = 0 then trimFrom fuel (n / 2) (e + 1) else (n, e)

/-- The form with an odd mantissa, which equal numbers share. -/
def trim (x : Binary) : Binary :=
  if x.mant = 0 then zero
  else
    let (n, e) := trimFrom (bitLength x.mant.natAbs) x.mant.natAbs x.exp
    withSign x.isNeg n e

def addExact (x y : Binary) : Binary :=
  if x.exp ≤ y.exp then ⟨x.mant + (y.mant <<< (y.exp - x.exp).toNat), x.exp⟩
  else ⟨(x.mant <<< (x.exp - y.exp).toNat) + y.mant, y.exp⟩

def add (p : Nat) (x y : Binary) : Binary :=
  if x.isZero then round p y
  else if y.isZero then round p x
  else
    let (hi, lo) := if x.top < y.top then (y, x) else (x, y)
    let bits := bitLength hi.mant.natAbs
    if hi.top - lo.top ≤ (max p bits + 64 : Nat) then round p (addExact x y)
    else
      let k := p + 8 - bits
      round p ⟨(hi.mant <<< k) + lo.mant.sign, hi.exp - k⟩

def sub (p : Nat) (x y : Binary) : Binary := add p x y.neg

def mulExact (x y : Binary) : Binary := ⟨x.mant * y.mant, x.exp + y.exp⟩

def mul (p : Nat) (x y : Binary) : Binary := round p (mulExact x y)

/-- A quotient; division by zero gives zero, and callers test for it first. -/
def div (p : Nat) (x y : Binary) : Binary :=
  if x.isZero || y.isZero then zero
  else
    let a := x.mant.natAbs
    let b := y.mant.natAbs
    let s := p + 2 + bitLength b - bitLength a
    let n := a <<< s
    let q := n / b
    let rest := if n % b = 0 then 0 else 1
    round p (withSign (x.isNeg != y.isNeg) (2 * q + rest) (x.exp - y.exp - s - 1))

def sqrt (p : Nat) (x : Binary) : Binary :=
  if x.mant ≤ 0 then zero
  else
    let n := x.mant.natAbs
    let s := 2 * p + 4 - bitLength n
    let s := if (x.exp - s) % 2 = 0 then s else s + 1
    let m := n <<< s
    let r := natSqrt m
    let rest := if r * r = m then 0 else 1
    round p ⟨(2 * r + rest : Nat), (x.exp - s) / 2 - 1⟩

def compare (x y : Binary) : Ordering :=
  if x.mant.sign != y.mant.sign then Ord.compare x.mant.sign y.mant.sign
  else if x.isZero then .eq
  else if x.top != y.top then
    if x.isNeg then Ord.compare y.top x.top else Ord.compare x.top y.top
  else Ord.compare (addExact x y.neg).mant 0

def lt (x y : Binary) : Bool := compare x y == .lt
def le (x y : Binary) : Bool := compare x y != .gt
def eq (x y : Binary) : Bool := compare x y == .eq

def floor (x : Binary) : Int :=
  if 0 ≤ x.exp then x.mant <<< x.exp.toNat
  else x.mant >>> (-x.exp).toNat

/-- The number times `2 ^ w`, rounded down: its fixed-point form. -/
def toFixed (w : Int) (x : Binary) : Int := floor (x.scale w)

def ofFixed (w : Int) (n : Int) : Binary := ⟨n, -w⟩

def isInteger (x : Binary) : Bool :=
  let t := x.trim
  0 ≤ t.exp

def toRat (x : Binary) : Rat :=
  if 0 ≤ x.exp then mkRat (x.mant <<< x.exp.toNat) 1
  else mkRat x.mant (1 <<< (-x.exp).toNat)

def ofRat (p : Nat) (q : Rat) : Binary := div p (ofInt q.num) (ofInt q.den)

end Binary

end Formulary
