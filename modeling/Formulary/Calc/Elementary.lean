import Formulary.Number.Directed

/-! # Elementary functions of scaled integers

Each function takes the count of bits wanted and computes in fixed point with
room to spare: arguments are brought into a small range, a power series is
summed, and the reduction is undone. Results carry a few bits more than asked
for before the final rounding.
-/

namespace Formulary.Elementary

open Binary

def fixedOne (w : Nat) : Int := (1 : Int) <<< w

/-- The sum of `1/n - 1/(3 n³) + 1/(5 n⁵) - …` in fixed point, signs all plus if `plus`. -/
def inverseSeries (plus : Bool) (n2 : Int) : Nat → Int → Int → Int → Int
  | 0, _, _, sum => sum
  | fuel + 1, power, k, sum =>
    if power = 0 then sum
    else
      let term := power / k
      let sum := if plus || k % 4 = 1 then sum + term else sum - term
      inverseSeries plus n2 fuel (power / n2) (k + 2) sum

def atanInverse (w : Nat) (n : Int) : Int :=
  inverseSeries false (n * n) (w + 2) (fixedOne w / n) 1 0

def atanhInverse (w : Nat) (n : Int) : Int :=
  inverseSeries true (n * n) (w + 2) (fixedOne w / n) 1 0

/-- `π * 2 ^ w`, by Machin's sum of two arcs. -/
def piFixed (w : Nat) : Int :=
  let v := w + 16
  (16 * atanInverse v 5 - 4 * atanInverse v 239) >>> (16 : Nat)

def ln2Fixed (w : Nat) : Int :=
  let v := w + 16
  (18 * atanhInverse v 26 - 2 * atanhInverse v 4801 + 8 * atanhInverse v 8749) >>> (16 : Nat)

def pi (p : Nat) : Binary := round p (ofFixed (p + 8) (piFixed (p + 8)))

/-- Numbers beyond this binary exponent are treated as out of reach. -/
def farExponent : Int := 20000

def farAway : Int := (1 : Int) <<< (40 : Nat)

/-- `1 + r + r²/2 + …` in fixed point with `w` bits. -/
def expSeries (w : Nat) (r : Int) : Nat → Int → Int → Int → Int
  | 0, _, _, sum => sum
  | fuel + 1, term, k, sum =>
    if term = 0 then sum
    else
      let term := ((term * r) >>> w) / k
      expSeries w r fuel term (k + 1) (sum + term)

def squareTimes (w : Nat) : Nat → Int → Int
  | 0, x => x
  | n + 1, x => squareTimes w n ((x * x) >>> w)

def exp (p : Nat) (x : Binary) : Binary :=
  if x.isZero then one
  else if x.top > farExponent then ⟨1, if x.isNeg then -farAway else farAway⟩
  else
    let w := p + 40 + x.top.toNat
    let fixed := x.toFixed w
    let ln2 := ln2Fixed w
    let k := Int.fdiv fixed ln2
    let r := fixed - k * ln2
    let halvings := 8
    let v := w + 2 * halvings
    let series := expSeries v (r <<< halvings) (v + 2) (fixedOne v) 1 (fixedOne v)
    round p ⟨squareTimes v halvings series, k - v⟩

/-- `2 (y + y³/3 + …)` in fixed point, from the powers of `y`. -/
def atanhSeries (w : Nat) (y2 : Int) : Nat → Int → Int → Int → Int
  | 0, _, _, sum => sum
  | fuel + 1, power, k, sum =>
    if power = 0 then sum
    else atanhSeries w y2 fuel ((power * y2) >>> w) (k + 2) (sum + power / k)

def log (p : Nat) (x : Binary) : Binary :=
  if x.mant ≤ 0 then zero
  else
    let t := x.top
    let m := x.scale (-t)
    let (m, e) := if lt m ⟨3, -2⟩ then (m.scale 1, t - 1) else (m, t)
    let d := addExact m ⟨-1, 0⟩
    if d.isZero then
      let w := p + 40
      round p (ofFixed w (e * ln2Fixed w))
    else
      let lost := if e = 0 then (-d.top).toNat else 0
      let w := p + 40 + lost + bitLength e.natAbs
      let y := (div (w + 8) d (addExact m one)).toFixed w
      let series := atanhSeries w ((y * y) >>> w) (w + 2) y 1 0
      round p (ofFixed w (2 * series + e * ln2Fixed w))

def circularSeries (w : Nat) (r2 : Int) : Nat → Int → Int → Int → Int
  | 0, _, _, sum => sum
  | fuel + 1, term, k, sum =>
    if term = 0 then sum
    else
      let term := -(((term * r2) >>> w) / (k * (k + 1)))
      circularSeries w r2 fuel term (k + 2) (sum + term)

/-- The quarter turns in an angle, and what is left of it, with `w` bits after the point. -/
def reduceAngle (w : Nat) (x : Binary) : Int × Int :=
  let v := w + x.top.toNat + 8
  let quarter := piFixed (v + 1)
  let fixed := x.toFixed (v + 2)
  let n := Int.fdiv (fixed + quarter / 2) quarter
  (n, (fixed - n * quarter) >>> (v + 2 - w))

/-- Sine and cosine. The width grows with the bits that reduction and smallness lose. -/
def sinCos (p : Nat) (x : Binary) : Binary × Binary :=
  if x.isZero then (zero, one)
  else if x.top > farExponent then (zero, one)
  else if x.top < -(2 * p + 40 : Nat) then (round p x, one)
  else
    let first := p + 40 + (-x.top).toNat
    let rough := (reduceAngle (first + 80) x).2
    let lost := first + 80 - bitLength rough.natAbs
    let w := first + 40 + lost
    let (n, r) := reduceAngle w x
    let r2 := (r * r) >>> w
    let s := ofFixed w (circularSeries w r2 (w + 2) r 2 r)
    let c := ofFixed w (circularSeries w r2 (w + 2) (fixedOne w) 1 (fixedOne w))
    match n % 4 with
    | 0 => (round p s, round p c)
    | 1 => (round p c, round p s.neg)
    | 2 => (round p s.neg, round p c.neg)
    | _ => (round p c.neg, round p s)

def sin (p : Nat) (x : Binary) : Binary := (sinCos p x).1
def cos (p : Nat) (x : Binary) : Binary := (sinCos p x).2

def tan (p : Nat) (x : Binary) : Binary :=
  let (s, c) := sinCos (p + 8) x
  div p s c

def atanSeries (w : Nat) (y2 : Int) : Nat → Int → Int → Int → Int
  | 0, _, _, sum => sum
  | fuel + 1, power, k, sum =>
    if power = 0 then sum
    else atanSeries w y2 fuel (-((power * y2) >>> w)) (k + 2) (sum + power / k)

def halveArc (p : Nat) (y : Binary) : Binary :=
  div p y (add p one (sqrt p (add p one (mul p y y))))

def atanSmall (p : Nat) (y : Binary) : Binary :=
  let v := p + 40
  let y := halveArc v (halveArc v (halveArc v y))
  let w := p + 40 + (-y.top).toNat
  let f := y.toFixed w
  (round (p + 8) (ofFixed w (atanSeries w ((f * f) >>> w) (w + 2) f 1 0))).scale 3

def atan (p : Nat) (x : Binary) : Binary :=
  if x.isZero then zero
  else if x.top < -(2 * p + 40 : Nat) then round p x
  else
    let a := x.abs
    let arc :=
      if le a one then atanSmall p a
      else sub (p + 8) ((pi (p + 16)).scale (-1)) (atanSmall (p + 8) (div (p + 40) one a))
    round p (if x.isNeg then arc.neg else arc)

/-- The angle of the point `(x, y)`, in `(-π, π]`; zero for the origin. -/
def atan2 (p : Nat) (y x : Binary) : Binary :=
  if y.isZero then if x.isNeg then pi p else zero
  else if x.isZero then
    let q := (pi p).scale (-1)
    if y.isNeg then q.neg else q
  else
    let a := atan (p + 8) (div (p + 40) y.abs x.abs)
    let a := if x.isNeg then sub (p + 8) (pi (p + 16)) a else a
    round p (if y.isNeg then a.neg else a)

def cosOfSin (p : Nat) (x : Binary) : Binary :=
  sqrt p (mulExact (addExact one x.neg) (addExact one x))

def asin (p : Nat) (x : Binary) : Binary := atan2 p x (cosOfSin (p + 40) x)
def acos (p : Nat) (x : Binary) : Binary := atan2 p (cosOfSin (p + 40) x) x

/-- The bits that `eˣ - e⁻ˣ` and the like lose near zero. -/
def lostNearZero (x : Binary) : Nat := 2 * (-x.top).toNat

def sinh (p : Nat) (x : Binary) : Binary :=
  if x.isZero then zero
  else if x.top < -(2 * p + 40 : Nat) then round p x
  else
    let w := p + 40 + lostNearZero x
    (sub (p + 8) (exp w x) (exp w x.neg)).scale (-1) |> round p

def cosh (p : Nat) (x : Binary) : Binary :=
  round p ((add (p + 8) (exp (p + 16) x) (exp (p + 16) x.neg)).scale (-1))

def tanh (p : Nat) (x : Binary) : Binary :=
  if x.top > 64 then if x.isNeg then one.neg else one
  else div p (sinh (p + 16) x) (cosh (p + 16) x)

def asinh (p : Nat) (x : Binary) : Binary :=
  if x.isZero then zero
  else if x.top < -(2 * p + 40 : Nat) then round p x
  else
    let a := x.abs
    let w := p + 40 + lostNearZero x
    let r := log (p + 8) (add w a (sqrt w (add w one (mul w a a))))
    round p (if x.isNeg then r.neg else r)

def acosh (p : Nat) (x : Binary) : Binary :=
  let d := addExact x one.neg
  let w := p + 40 + lostNearZero d
  log p (add w x (sqrt w (mul w d (addExact x one))))

def atanh (p : Nat) (x : Binary) : Binary :=
  if x.isZero then zero
  else if x.top < -(2 * p + 40 : Nat) then round p x
  else
    let w := p + 40 + lostNearZero x
    (log (p + 8) (div w (addExact one x) (addExact one x.neg))).scale (-1) |> round p

def powNat (p : Nat) (x : Binary) (n : Nat) : Binary :=
  if h : n = 0 then one
  else
    let r := powNat p (mul p x x) (n / 2)
    if n % 2 = 1 then mul p x r else r
termination_by n
decreasing_by omega

def powInt (p : Nat) (x : Binary) (n : Int) : Binary :=
  let w := p + 16 + 2 * bitLength n.natAbs
  if n = -1 then div p one x
  else if n < 0 then div p one (round (p + 5) (powNat w x n.natAbs))
  else round p (powNat w x n.natAbs)

/-- A power of a number above zero. Half-whole exponents take the square root first; others go
through a logarithm with ten bits more than asked for. -/
def pow (p : Nat) (x y : Binary) : Binary :=
  let y := y.trim
  if eq x one then one
  else if y.top > farExponent then
    if decide (x.top ≤ 0) != y.isNeg then ⟨1, -farAway⟩ else ⟨1, farAway⟩
  else if y.exp = -1 && y.top ≤ 12 then
    let r := sqrt (p + 10) x
    if y.mant = 1 then sqrt p x else if y.mant = -1 then div p one r else powInt p r y.mant
  else exp p (mulExact y (log (p + 10) x))

/-- The ratios of Bernoulli numbers `B₂ₖ / (2k (2k - 1))`. -/
def stirlingTerms : List Rat :=
  [1/12, -1/360, 1/1260, -1/1680, 1/1188, -691/360360, 1/156, -3617/122400, 43867/244188,
   -174611/125400, 77683/5796, -236364091/1506960, 657931/300, -3392780147/93960,
   1723168255201/2492028, -7709321041217/505920]

def logGammaLarge (p : Nat) (x : Binary) : Binary :=
  let l := log p x
  let base := sub p (mul p (sub p x half) l) x
  let base := add p base ((log p ((pi p).scale 1)).scale (-1))
  let inv := div p one x
  let inv2 := mul p inv inv
  (stirlingTerms.foldl (fun (sum, power) c =>
    (add p sum (mul p power (ofRat p c)), mul p power inv2)) (base, inv)).1

def risingProduct (p : Nat) (x : Binary) : Nat → Binary
  | 0 => one
  | n + 1 => mul p x (risingProduct p (add p x one) n)

def gammaPositive (p : Nat) (x : Binary) : Binary :=
  let shift := (64 - x.floor).toNat
  let big := add p x (ofInt shift)
  div p (exp p (logGammaLarge p big)) (risingProduct p x shift)

/-- `Γ`, by reflection left of one half. -/
def gamma (p : Nat) (x : Binary) : Binary :=
  let w := p + 60 + x.top.toNat
  if lt x half then
    let other := gammaPositive w (addExact one x.neg)
    div p (pi w) (mul w (sin w (mul w (pi (w + 16)) x)) other)
  else round p (gammaPositive w x)

end Formulary.Elementary
