import Formulary.Calc.Complex

/-! # Scalars

The numbers inside expressions: exact fractions, rounded numbers with their count
of bits, the two infinities, the pole of no direction, and the undefined value.
A rounded number makes every sum and product it enters a rounded one.
-/

namespace Formulary

inductive Scalar where
  | exact (q : Rat)
  | rounded (bits : Nat) (x : Binary)
  | infinite (negative : Bool)
  | pole
  | undefined
  deriving DecidableEq, Repr

namespace Scalar

def zero : Scalar := .exact 0
def one : Scalar := .exact 1
def minusOne : Scalar := .exact (-1)
def half : Scalar := .exact (1 / 2)
def ofInt (n : Int) : Scalar := .exact n

def round (bits : Nat) (x : Binary) : Scalar := .rounded bits (x.round bits).trim

def settle (bits : Nat) (x : Binary) : Scalar :=
  let r := (x.round bits).trim
  if r.isZero then zero else .rounded bits r

/-- More bits than asked for, so that the roundings after it are the only ones that show. -/
def guardBits : Nat := 24

/-- A function of a rounded number is rounded twice, first to so many bits more. -/
def roundingBits : Nat := 4

/-- What a function makes of a rounded number. -/
def settleTwice (bits : Nat) (x : Binary) : Scalar := settle bits (x.round (bits + roundingBits))

def doubleBits : Nat := 53

/-- Decimal digits that a rounded number of so many bits is written with. -/
def digitsFor (bits : Nat) : Nat := (bits * 10000000000 + 16609640474) / 33219280949 - 1

def isZero : Scalar → Bool
  | .exact q => q == 0
  | .rounded _ x => x.isZero
  | _ => false

def isFinite : Scalar → Bool
  | .exact _ | .rounded .. => true
  | _ => false

def isNeg : Scalar → Bool
  | .exact q => q < 0
  | .rounded _ x => x.isNeg
  | .infinite s => s
  | _ => false

def isPos : Scalar → Bool
  | .exact q => 0 < q
  | .rounded _ x => !x.isNeg && !x.isZero
  | .infinite s => !s
  | _ => false

def int? : Scalar → Option Int
  | .exact q => if q.den = 1 then some q.num else none
  | _ => none

def toBinary (p : Nat) : Scalar → Binary
  | .exact q => Binary.ofRat p q
  | .rounded _ x => x
  | _ => Binary.zero

/-- The bits of a result that both enter: an exact number has none of its own. -/
def commonBits : Scalar → Scalar → Nat
  | .rounded a _, .rounded b _ => max a b
  | .rounded a _, _ => a
  | _, .rounded b _ => b
  | _, _ => doubleBits

def neg : Scalar → Scalar
  | .exact q => .exact (-q)
  | .rounded p x => .rounded p x.neg
  | .infinite s => .infinite (!s)
  | s => s

def size (a : Scalar) : Scalar := if a.isNeg then a.neg else a

def add (a b : Scalar) : Scalar :=
  match a, b with
  | .undefined, _ | _, .undefined => .undefined
  | .pole, .pole | .pole, .infinite _ | .infinite _, .pole => .undefined
  | .pole, _ | _, .pole => .pole
  | .infinite s, .infinite t => if s = t then .infinite s else .undefined
  | .infinite s, _ | _, .infinite s => .infinite s
  | .exact x, .exact y => .exact (x + y)
  | _, _ =>
    let p := commonBits a b
    settle p (.add p (a.toBinary p) (b.toBinary p))

def mul (a b : Scalar) : Scalar :=
  match a, b with
  | .undefined, _ | _, .undefined => .undefined
  | .pole, c | c, .pole => if c.isZero then .undefined else .pole
  | .infinite s, c | c, .infinite s =>
    if c.isZero then .undefined else .infinite (s != c.isNeg)
  | .exact x, .exact y => .exact (x * y)
  | _, _ =>
    let p := commonBits a b
    settle p (.mul p (a.toBinary p) (b.toBinary p))

/-- Exact powers up to this many bits are written out. -/
def exactPowerBits : Nat := 1 <<< 22

/-- `a ^ n`. A zero gives a pole where the exponent is negative. -/
def powInt (a : Scalar) (n : Int) : Scalar :=
  if n = 0 then one
  else if n = 1 then a
  else match a with
  | .undefined => .undefined
  | .pole => if 0 < n then .pole else zero
  | .infinite s => if n < 0 then zero else .infinite (s && n % 2 != 0)
  | .exact q =>
    if q = 0 then if n < 0 then .pole else zero
    else if q = 1 || q = -1 then .exact (if n % 2 = 0 then 1 else q)
    else if (max (bitLength q.num.natAbs) (bitLength q.den)) * n.natAbs > exactPowerBits then
      round doubleBits (Elementary.powInt doubleBits (Binary.ofRat doubleBits q) n)
    else if n < 0 then .exact ((q⁻¹) ^ n.natAbs)
    else .exact (q ^ n.natAbs)
  | .rounded p x =>
    if x.isZero then if n < 0 then .pole else a
    else settle p (Elementary.powInt p x n)

/-- `a / b` as numbers are divided at once; a fraction over a rounded number is multiplied by its
inverse. -/
def div (a b : Scalar) : Scalar :=
  match a, b with
  | .exact x, .exact y => if y = 0 then if x = 0 then .undefined else .pole else .exact (x / y)
  | .rounded p x, _ =>
    if b.isFinite && !b.isZero then
      let w := commonBits a b
      settle w (.div w x (b.toBinary p))
    else mul a (b.powInt (-1))
  | _, _ => mul a (b.powInt (-1))

def compare? (a b : Scalar) : Option Ordering :=
  match a, b with
  | .exact x, .exact y => some (if x < y then .lt else if y < x then .gt else .eq)
  | .infinite s, .infinite t =>
    some (if s = t then .eq else if s then .lt else .gt)
  | .infinite s, .exact _ | .infinite s, .rounded .. => some (if s then .lt else .gt)
  | .exact _, .infinite s | .rounded .., .infinite s => some (if s then .gt else .lt)
  | .rounded _ x, .rounded _ y => some (Binary.compare x y)
  | .exact q, .rounded _ y => some (Binary.compare (.ofInt q.num) (.mulExact y (.ofInt q.den)))
  | .rounded _ x, .exact q => some (Binary.compare (.mulExact x (.ofInt q.den)) (.ofInt q.num))
  | _, _ => none

def farTop : Nat := 1 <<< 22

def isFar : Scalar → Bool
  | .rounded _ x => !x.isZero && x.top.natAbs > farTop
  | _ => false

def floor? (a : Scalar) : Option Scalar :=
  match a with
  | .exact q => some (ofInt q.floor)
  | .rounded _ x =>
    if !a.isFar then some (ofInt x.floor)
    else if 0 < x.top then some a
    else some (ofInt (if x.isNeg then -1 else 0))
  | _ => none

def mod? (a b : Scalar) : Option Scalar :=
  if a.isFar || b.isFar then none
  else match a, b with
  | .exact x, .exact y => some (.exact (x - y * (x / y).floor))
  | .rounded p x, .rounded q y =>
    let w := max p q
    if (Binary.div w x y).isInteger then some zero
    else some (settle w (modBinary x y))
  | .rounded p x, .exact q =>
    if q.den = 1 then some (settle p (modBinary x (Binary.ofRat p q)))
    else some (settle p (Binary.ofRat (2 * p) (x.toRat - q * (x.toRat / q).floor)))
  | .exact q, .rounded p y =>
    some (settle p (Binary.ofRat (2 * p) (q - y.toRat * (q / y.toRat).floor)))
  | _, _ => none
where
  modBinary (x y : Binary) : Binary :=
    let e := min x.exp y.exp
    let m := x.mant <<< (x.exp - e).toNat
    let n := y.mant <<< (y.exp - e).toNat
    ⟨Int.fmod m n, e⟩

end Scalar

end Formulary
