import Formulary.Number.Binary

/-! # Directed rounding

Rounding inwards cuts a number to its first bits; rounding outwards adds one to the
last of them where something was cut. Quotients, roots and powers take a direction
too.
-/

namespace Formulary

inductive Direction where
  | inward | outward
  deriving DecidableEq, Repr

namespace Direction

/-- The direction of a divisor, for a quotient of direction `d`. -/
def opposite : Direction → Direction
  | inward => outward
  | outward => inward

/-- `n / 2 ^ k`, where `more` says that a rest was already dropped. -/
def shift (d : Direction) (n k : Nat) (more : Bool) : Nat :=
  let q := n >>> k
  if d = outward && (more || q <<< k != n) then q + 1 else q

end Direction

namespace Binary

def roundTo (d : Direction) (p : Nat) (x : Binary) : Binary :=
  let n := x.mant.natAbs
  let k := bitLength n - p
  if k = 0 then x else withSign x.isNeg (d.shift n k false) (x.exp + k)

def truncate (p : Nat) (x : Binary) : Binary := roundTo .inward p x

def divTo (d : Direction) (p : Nat) (x y : Binary) : Binary :=
  if x.isZero || y.isZero then zero
  else
    let a := x.mant.natAbs
    let b := y.mant.natAbs
    let s := p + 2 + bitLength b - bitLength a
    let n := a <<< s
    let q := n / b
    let rest := if n % b = 0 then 0 else 1
    roundTo d p (withSign (x.isNeg != y.isNeg) (2 * q + rest) (x.exp - y.exp - s - 1))

def sqrtTo (d : Direction) (p : Nat) (x : Binary) : Binary :=
  if x.mant ≤ 0 then zero
  else
    let n := x.mant.natAbs
    let s := 2 * p + 4 - bitLength n
    let s := if (x.exp - s) % 2 = 0 then s else s + 1
    let m := n <<< s
    let r := natSqrt m
    let rest := if r * r = m then 0 else 1
    roundTo d p ⟨(2 * r + rest : Nat), (x.exp - s) / 2 - 1⟩

/-- Powers of numbers with up to this many bits in all are multiplied out exactly. -/
def exactBits : Nat := 1000

/-- A power by squaring, each product rounded; `r` is the part that is done. -/
def squaredPower (d : Direction) (w : Nat) (r x : Binary) (n : Nat) : Binary :=
  if h : n = 0 then r
  else
    let r := if n % 2 = 1 then roundTo d w (mulExact r x) else r
    squaredPower d w r (roundTo d w (mulExact x x)) (n / 2)
termination_by n
decreasing_by omega

def powNatTo (d : Direction) (p : Nat) (x : Binary) (n : Nat) : Binary :=
  let b := bitLength x.mant.natAbs
  if n = 2 || b * n < exactBits then roundTo d p ⟨Int.pow x.mant n, x.exp * n⟩
  else roundTo d p (squaredPower d (p + 4 * bitLength n + 4) one x n)

/-- A whole power. Below zero the power of the size has five bits more and divides one. -/
def powIntTo (d : Direction) (p : Nat) (x : Binary) (n : Int) : Binary :=
  if n = -1 then divTo d p one x
  else if n < 0 then divTo d p one (powNatTo d.opposite (p + 5) x n.natAbs)
  else powNatTo d p x n.natAbs

end Binary

end Formulary
