import Formulary.Calc.Elementary

/-! # Complex numbers

Pairs of scaled integers. Logarithm, roots, powers and inverse functions take
their principal values. A part that must be zero comes out as an exact zero.
-/

namespace Formulary

structure Complex where
  re : Binary
  im : Binary
  deriving DecidableEq, Repr

namespace Complex

open Binary (zero one mulExact addExact)

def ofReal (x : Binary) : Complex := ⟨x, zero⟩

def unit : Complex := ofReal one

def imaginaryUnit : Complex := ⟨zero, one⟩

def isReal (z : Complex) : Bool := z.im.isZero

def isZero (z : Complex) : Bool := z.re.isZero && z.im.isZero

def neg (z : Complex) : Complex := ⟨z.re.neg, z.im.neg⟩

def add (p : Nat) (z w : Complex) : Complex := ⟨.add p z.re w.re, .add p z.im w.im⟩

def sub (p : Nat) (z w : Complex) : Complex := add p z w.neg

def mul (p : Nat) (z w : Complex) : Complex :=
  ⟨.add p (mulExact z.re w.re) (mulExact z.im w.im).neg,
   .add p (mulExact z.re w.im) (mulExact z.im w.re)⟩

def timesI (z : Complex) : Complex := ⟨z.im.neg, z.re⟩

def scale (z : Complex) (k : Int) : Complex := ⟨z.re.scale k, z.im.scale k⟩

def normSq (p : Nat) (z : Complex) : Binary := .add p (mulExact z.re z.re) (mulExact z.im z.im)

def div (p : Nat) (z w : Complex) : Complex :=
  if w.isReal then ⟨.div p z.re w.re, .div p z.im w.re⟩
  else
    let n := normSq (p + 16) w
    let m := mul (p + 16) z ⟨w.re, w.im.neg⟩
    ⟨.div p m.re n, .div p m.im n⟩

def inv (p : Nat) (z : Complex) : Complex := div p unit z

def abs (p : Nat) (z : Complex) : Binary :=
  if z.isReal then z.re.abs else .sqrt p (normSq (p + 16) z)

def arg (p : Nat) (z : Complex) : Binary := Elementary.atan2 p z.im z.re

def exp (p : Nat) (z : Complex) : Complex :=
  let r := Elementary.exp (p + 8) z.re
  if z.isReal then ofReal (r.round p)
  else
    let (s, c) := Elementary.sinCos (p + 8) z.im
    ⟨.mul p r c, .mul p r s⟩

def log (p : Nat) (z : Complex) : Complex :=
  if z.isReal then
    ⟨Elementary.log p z.re.abs, if z.re.isNeg then Elementary.pi p else zero⟩
  else ⟨(Elementary.log p (normSq (2 * p) z)).scale (-1), arg p z⟩

def sqrt (p : Nat) (z : Complex) : Complex :=
  if z.isReal then
    if z.re.isNeg then ⟨zero, .sqrt p z.re.neg⟩ else ofReal (.sqrt p z.re)
  else
    let w := p + 16
    let t := Binary.sqrt w ((Binary.add w (abs w z) z.re.abs).scale (-1))
    let u := Binary.div w (z.im.abs.scale (-1)) t
    let (a, b) := if z.re.isNeg then (u, t) else (t, u)
    ⟨a.round p, (if z.im.isNeg then b.neg else b).round p⟩

def powNat (p : Nat) (z : Complex) (n : Nat) : Complex :=
  if h : n = 0 then unit
  else
    let r := powNat p (mul p z z) (n / 2)
    if n % 2 = 1 then mul p z r else r
termination_by n
decreasing_by omega

def powInt (p : Nat) (z : Complex) (n : Int) : Complex :=
  let r := powNat (p + 16 + 2 * bitLength n.natAbs) z n.natAbs
  if n < 0 then inv p r else r

/-- A power with nonzero base. Whole exponents and square roots need no logarithm. -/
def pow (p : Nat) (z w : Complex) : Complex :=
  if w.isReal && w.re.isInteger && w.re.top ≤ 12 then powInt p z w.re.floor
  else if w.isReal && w.re.eq Binary.half then sqrt p z
  else if w.isReal && w.re.eq Binary.half.neg then inv p (sqrt (p + 16) z)
  else if z.isReal && !z.re.isNeg && w.isReal then ofReal (Elementary.pow p z.re w.re)
  else
    let wide := p + 40 + w.re.top.toNat + w.im.top.toNat
    exp p (mul wide w (log wide z))

def sin (p : Nat) (z : Complex) : Complex :=
  let (s, c) := Elementary.sinCos (p + 8) z.re
  if z.isReal then ofReal (s.round p)
  else ⟨.mul p s (Elementary.cosh (p + 8) z.im), .mul p c (Elementary.sinh (p + 8) z.im)⟩

def cos (p : Nat) (z : Complex) : Complex :=
  let (s, c) := Elementary.sinCos (p + 8) z.re
  if z.isReal then ofReal (c.round p)
  else ⟨.mul p c (Elementary.cosh (p + 8) z.im),
    (Binary.mul p s (Elementary.sinh (p + 8) z.im)).neg⟩

def tan (p : Nat) (z : Complex) : Complex := div p (sin (p + 16) z) (cos (p + 16) z)

def sinh (p : Nat) (z : Complex) : Complex :=
  if z.isReal then ofReal (Elementary.sinh p z.re) else (sin p z.timesI).timesI.neg

def cosh (p : Nat) (z : Complex) : Complex :=
  if z.isReal then ofReal (Elementary.cosh p z.re) else cos p z.timesI

def tanh (p : Nat) (z : Complex) : Complex :=
  if z.isReal then ofReal (Elementary.tanh p z.re) else div p (sinh (p + 16) z) (cosh (p + 16) z)

def inUnitInterval (z : Complex) : Bool := z.isReal && z.re.abs.le one

/-- `√(1 - z²)`. -/
def coLeg (p : Nat) (z : Complex) : Complex := sqrt p (sub (2 * p) unit (mul (2 * p) z z))

/-- `-i log (i z + √(1 - z²))`. -/
def asin (p : Nat) (z : Complex) : Complex :=
  if z.inUnitInterval then ofReal (Elementary.asin p z.re)
  else (log p (add (2 * p) z.timesI (coLeg (2 * p) z))).timesI.neg

/-- `-i log (z + i √(1 - z²))`. -/
def acos (p : Nat) (z : Complex) : Complex :=
  if z.inUnitInterval then ofReal (Elementary.acos p z.re)
  else (log p (add (2 * p) z (coLeg (2 * p) z).timesI)).timesI.neg

/-- `i / 2 (log (1 - i z) - log (1 + i z))`. -/
def atan (p : Nat) (z : Complex) : Complex :=
  if z.isReal then ofReal (Elementary.atan p z.re)
  else
    let w := z.timesI
    ((sub p (log (p + 16) (sub (2 * p) unit w))
      (log (p + 16) (add (2 * p) unit w))).scale (-1)).timesI

def asinh (p : Nat) (z : Complex) : Complex :=
  if z.isReal then ofReal (Elementary.asinh p z.re) else (asin p z.timesI).timesI.neg

/-- `log (z + √(z + 1) √(z - 1))`. -/
def acosh (p : Nat) (z : Complex) : Complex :=
  if z.isReal && one.le z.re then ofReal (Elementary.acosh p z.re)
  else
    let w := 2 * p
    log p (add w z (mul w (sqrt w (add w z unit)) (sqrt w (sub w z unit))))

/-- `½ (log (1 + z) - log (1 - z))`, away from `±1`. -/
def atanh (p : Nat) (z : Complex) : Complex :=
  if z.isReal && z.re.abs.lt one then ofReal (Elementary.atanh p z.re)
  else (sub p (log (p + 16) (add (2 * p) unit z)) (log (p + 16) (sub (2 * p) unit z))).scale (-1)

def logGammaLarge (p : Nat) (z : Complex) : Complex :=
  let l := log p z
  let base := sub p (mul p (sub p z (ofReal Binary.half)) l) z
  let base := add p base
    (ofReal ((Elementary.log p ((Elementary.pi p).scale 1)).scale (-1)))
  let inverse := inv p z
  let square := mul p inverse inverse
  (Elementary.stirlingTerms.foldl (fun (sum, power) c =>
    (add p sum (mul p power (ofReal (.ofRat p c))), mul p power square)) (base, inverse)).1

def risingProduct (p : Nat) (z : Complex) : Nat → Complex
  | 0 => unit
  | n + 1 => mul p z (risingProduct p (add p z unit) n)

/-- `Γ` of a number with a real part above zero. -/
def gammaRight (p : Nat) (z : Complex) : Complex :=
  let shift := (64 - z.re.floor).toNat
  let big := add p z (ofReal (.ofInt shift))
  div p (exp p (logGammaLarge p big)) (risingProduct p z shift)

/-- `Γ`, by reflection left of one half. -/
def gamma (p : Nat) (z : Complex) : Complex :=
  if z.isReal then ofReal (Elementary.gamma p z.re)
  else
    let w := p + 60 + z.re.top.toNat + z.im.top.toNat
    if z.re.lt Binary.half then
      let wave := sin w (mul w (ofReal (Elementary.pi (w + 16))) z)
      div p (ofReal (Elementary.pi w)) (mul w wave (gammaRight w (sub w unit z)))
    else
      let g := gammaRight w z
      ⟨g.re.round p, g.im.round p⟩

end Complex

end Formulary
