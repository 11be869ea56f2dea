import Formulary.Number.Binary

/-! # Doubles

Binary floating-point numbers of 53 bits with signed zeros, infinities and an
undefined value. A finite one is `± mant * 2 ^ exp`, so order and rounding are
integer arithmetic.
-/

namespace Formulary

inductive Double where
  | finite (negative : Bool) (mant : Nat) (exp : Int)
  | infinite (negative : Bool)
  | nan
  deriving DecidableEq, Repr

namespace Double

def zero : Double := .finite false 0 0

def isFinite : Double → Bool
  | .finite .. => true
  | _ => false

def isNan : Double → Bool
  | .nan => true
  | _ => false

/-- The double nearest to `num / den`, ties to even, with the sign given. -/
def ofRatio (negative : Bool) (num den : Nat) : Double :=
  if num = 0 then .finite negative 0 0
  else
    let least : Int := (bitLength num : Int) - bitLength den - 53
    let quotient (e : Int) : Nat :=
      if 0 ≤ e then divRound num (den <<< e.toNat) else divRound (num <<< (-e).toNat) den
    let wide (e : Int) : Bool :=
      if 0 ≤ e then num ≥ (den <<< e.toNat) <<< 53 else num <<< (-e).toNat ≥ den <<< 53
    let e := if wide least then least + 1 else least
    let e := max e (-1074)
    let m := quotient e
    let (m, e) := if m = 1 <<< 53 then (1 <<< 52, e + 1) else (m, e)
    if e > 971 then .infinite negative else .finite negative m e

def ofDecimal (negative : Bool) (digits : Nat) (power : Int) : Double :=
  let size := (bitLength digits : Int) * 3 / 10 + power
  if digits = 0 || size < -400 then .finite negative 0 0
  else if size > 400 then .infinite negative
  else if 0 ≤ power then ofRatio negative (digits * Nat.pow 10 power.toNat) 1
  else ofRatio negative digits (Nat.pow 10 (-power).toNat)

def ofBinary (x : Binary) : Double :=
  let n := x.mant.natAbs
  if n = 0 || x.top < -1200 then .finite x.isNeg 0 0
  else if x.top > 1100 then .infinite x.isNeg
  else if 0 ≤ x.exp then ofRatio x.isNeg (n <<< x.exp.toNat) 1
  else ofRatio x.isNeg n (1 <<< (-x.exp).toNat)

def ofInt (n : Int) : Double := ofRatio (n < 0) n.natAbs 1

def toBinary : Double → Binary
  | .finite negative m e => Binary.withSign negative m e
  | _ => Binary.zero

def abs : Double → Double
  | .finite _ m e => .finite false m e
  | .infinite _ => .infinite false
  | .nan => .nan

/-- `a ≤ b`; nothing is comparable with the undefined value. -/
def le : Double → Double → Bool
  | .nan, _ | _, .nan => false
  | .infinite true, _ | _, .infinite false => true
  | _, .infinite true | .infinite false, _ => false
  | a@(.finite ..), b@(.finite ..) => Binary.le a.toBinary b.toBinary

def lt : Double → Double → Bool
  | .nan, _ | _, .nan => false
  | a, b => !le b a

/-- The smaller of two, the first one unless the second is below it. -/
def min (a b : Double) : Double := if lt b a then b else a

/-- The larger of two, the first one unless the second is above it. -/
def max (a b : Double) : Double := if lt a b then b else a

def toFloat : Double → Float
  | .nan => 0.0 / 0.0
  | .infinite s => if s then -1.0 / 0.0 else 1.0 / 0.0
  | .finite s m e =>
    let x := Float.scaleB m.toFloat e
    if s then -x else x

def ofFloat (x : Float) : Double :=
  let bits : Nat := x.toBits.toNat
  let negative := bits >>> 63 == 1
  let exponent : Nat := (bits >>> 52) % 2048
  let fraction : Nat := bits % (1 <<< 52)
  if exponent = 2047 then if fraction = 0 then .infinite negative else .nan
  else if exponent = 0 then .finite negative fraction (-1074)
  else .finite negative (fraction + (1 <<< 52)) ((exponent : Int) - 1075)

end Double

end Formulary
