import Formulary.Calc.Approx
import Formulary.Number.Directed

/-! # Estimates

The value of a constant expression to as many bits as are wanted, with the count of
bits that hold. Every operation asks its operands for some bits more than it is
asked for. A sum of which too much cancels is estimated again with more bits, up to
a limit; beyond it the rest stands as it is, and little or nothing of it holds.
-/

namespace Formulary

/-- A nonzero part of a number, and how many of its first bits hold. -/
structure Measure where
  value : Binary
  bits : Int
  deriving DecidableEq, Repr

/-- A part that is zero is not there. -/
structure Estimate where
  re : Option Measure
  im : Option Measure
  deriving DecidableEq, Repr

/-- An estimate from the bits wanted and the limit for sums that cancel. -/
abbrev Estimator := Nat → Nat → Option Estimate

namespace Measure

/-- A part with so many bits that hold, unless it is zero. -/
def of? (x : Binary) (bits : Int) : Option Measure :=
  if x.isZero then none else some ⟨x.trim, bits⟩

def top (m : Measure) : Int := m.value.top

/-- The power of two that bounds the error. -/
def error (m : Measure) : Int := m.top - m.bits

def neg (m : Measure) : Measure := ⟨m.value.neg, m.bits⟩

def accumulate (width : Nat) (sum term : Binary) : Binary :=
  if sum.exp ≤ term.exp then
    if width < term.exp - sum.exp
        && (sum.isZero || width < term.exp - sum.exp - bitLength sum.mant.natAbs) then term
    else Binary.addExact sum term
  else if width < sum.exp - term.exp - bitLength term.mant.natAbs then
    if sum.isZero then term else sum
  else Binary.addExact sum term

/-- The sum of parts, rounded to `target` bits. Where nothing is left the error is. -/
def sum? (width target : Nat) (ms : List Measure) : Option Measure :=
  match ms with
  | [] => none
  | [m] => some m
  | m :: rest =>
    let error := (rest.map Measure.error).foldl max m.error
    let total := ms.foldl (fun s m => accumulate width s m.value) Binary.zero
    if total.isZero then some ⟨⟨1, error⟩, -1⟩
    else some ⟨(total.round target).trim, total.top - error⟩

end Measure

namespace Estimate

def zero : Estimate := ⟨none, none⟩

def real (x : Binary) (bits : Int) : Estimate := ⟨Measure.of? x bits, none⟩

def imaginary (x : Binary) (bits : Int) : Estimate := ⟨none, Measure.of? x bits⟩

/-- The bits that hold of the number as a whole; none are missing where it is zero. -/
def bits? (e : Estimate) : Option Int :=
  match e.re, e.im with
  | none, none => none
  | some m, none | none, some m => some m.bits
  | some m, some n => some (max m.top n.top - max m.error n.error)

def ofParts (x y : Binary) (bits : Nat) : Estimate :=
  if x.isZero || y.isZero then ⟨Measure.of? x bits, Measure.of? y bits⟩
  else
    let t := max x.top y.top
    ⟨Measure.of? x (bits - (t - x.top)), Measure.of? y (bits - (t - y.top))⟩

/-- The number times `i ^ n`. -/
def turned (n : Nat) (e : Estimate) : Estimate :=
  match n % 4 with
  | 0 => e
  | 1 => ⟨e.im.map Measure.neg, e.re⟩
  | 2 => ⟨e.re.map Measure.neg, e.im.map Measure.neg⟩
  | _ => ⟨e.im, e.re.map Measure.neg⟩

/-! ### Sums -/

def sumGuard : Nat := 10

def sumRounds : Nat := 64

/-- Estimates a sum with `width` bits, and with more where too few hold. -/
def sumFrom (terms : List Estimator) (target limit : Nat) : Nat → Nat → Nat → Option Estimate
  | 0, _, _ => none
  | rounds + 1, round, width => do
    let cap := min limit (2 * width)
    let es ← terms.mapM fun t => t (width + sumGuard) cap
    let e : Estimate :=
      ⟨Measure.sum? (2 * width) target (es.filterMap re),
       Measure.sum? (2 * width) target (es.filterMap im)⟩
    match e.bits? with
    | none => return e
    | some bits =>
      if (target : Int) ≤ bits || cap < width - target then return e
      else
        let more := max (10 + ((1 : Int) <<< round)) (target - bits)
        sumFrom terms target limit rounds (round + 1) (width + more.toNat)

def sum (terms : List Estimator) : Estimator := fun target limit =>
  sumFrom terms target limit sumRounds 0 target

/-! ### Products -/

structure Folded where
  size : Binary
  width : Nat
  quarters : Nat
  bits : Int

/-- Drops bits of a product that grows too long. -/
def shorten (w : Nat) : Nat → Binary × Nat → Binary × Nat
  | 0, p => p
  | n + 1, (x, b) =>
    if 3 * w < b then
      shorten w n (⟨Int.tdiv x.mant (Elementary.fixedOne w), x.exp + w⟩, b - w)
    else (x, b)

def fold (w : Nat) (f : Folded) (m : Measure) (quarter : Nat) : Folded :=
  let x := Binary.mulExact f.size m.value
  let b := f.width + bitLength m.value.mant.natAbs
  let (x, b) := shorten w b (x, b)
  ⟨x, b, f.quarters + quarter, min f.bits m.bits⟩

def times (w : Nat) (z u : Complex) : Complex :=
  let part (a b c d : Binary) : Binary :=
    (Binary.addExact ((Binary.mulExact a b).truncate w)
      ((Binary.mulExact c d).truncate w)).truncate w
  ⟨part z.re u.re z.im.neg u.im, part z.re u.im z.im u.re⟩

def value (e : Estimate) : Complex :=
  ⟨(e.re.map Measure.value).getD Binary.zero, (e.im.map Measure.value).getD Binary.zero⟩

def product (factors : List Estimator) : Estimator := fun target limit => do
  let w := target + factors.length + 5
  let es ← factors.mapM fun f => f w limit
  if es.any fun e => e == zero then return zero
  let (complex, plain) := es.partition fun e => e.re.isSome && e.im.isSome
  let folded := plain.foldl (fun f e =>
    match e.re, e.im with
    | some m, _ => fold w f m 0
    | _, some m => fold w f m 1
    | none, none => f) ⟨Binary.one, 1, 0, target⟩
  if complex.isEmpty then
    return turned folded.quarters (real (folded.size.round target) folded.bits)
  else
    let bits := complex.foldl (fun b e => min b (e.bits?.getD b)) folded.bits
    let z := complex.foldl (fun z e => times w z e.value) (Complex.ofReal folded.size)
    return turned folded.quarters ⟨Measure.of? z.re bits, Measure.of? z.im bits⟩

/-! ### Powers -/

def complexPower (w : Nat) (z : Complex) (n : Int) : Complex :=
  let exact := Complex.powNat (n.natAbs * (4 * w + 64)) z n.natAbs
  let cut (p : Nat) (z : Complex) : Complex := ⟨z.re.truncate p, z.im.truncate p⟩
  if 0 ≤ n then cut w exact
  else
    let r := cut (w + 4) exact
    let m := (Binary.addExact (.mulExact r.re r.re) (.mulExact r.im r.im)).truncate (w + 10)
    ⟨.divTo .inward w r.re m, .divTo .inward w r.im.neg m⟩

def wholePower (base : Estimator) (n : Int) : Estimator := fun target limit => do
  let w := target + n.natAbs.log2
  let b ← base (w + 5) limit
  match b.re, b.im with
  | none, none => if n < 0 then none else return zero
  | some m, none => return real (.powIntTo .inward target m.value n) target
  | none, some m =>
    return turned (n % 4).toNat (real (.powIntTo .inward target m.value n) target)
  | some _, some _ =>
    let z := complexPower w b.value n
    return ofParts z.re z.im target

def squareRoot (base : Estimator) : Estimator := fun target limit => do
  let b ← base (target + 5) limit
  match b.re, b.im with
  | none, none => return zero
  | some m, none =>
    let root := Binary.sqrtTo .inward target m.value.abs
    return if m.value.isNeg then imaginary root target else real root target
  | _, some _ => none

def expInward (p : Nat) (x : Binary) : Binary :=
  if x.isZero then Binary.one else (Elementary.exp (p + 40) x).truncate p

def powInward (p : Nat) (x y : Binary) : Binary :=
  let y := y.trim
  if 0 ≤ y.exp then .powIntTo .inward p x (y.mant <<< y.exp.toNat)
  else if y.exp = -1 then
    if y.mant = 1 then .sqrtTo .inward p x
    else if y.mant = -1 then .divTo .inward p .one (.sqrtTo .outward (p + 10) x)
    else .powIntTo .inward p (.sqrtTo (if y.isNeg then .outward else .inward) (p + 10) x) y.mant
  else expInward p (.mulExact y ((Elementary.log (p + 50) x).truncate (p + 10)))

def expComplex (p : Nat) (z : Complex) : Complex :=
  let (s, c) := Elementary.sinCos (p + 50) z.im
  if z.re.isZero then ⟨c.truncate p, s.truncate p⟩
  else
    let r := expInward (p + 4) z.re
    ⟨(Binary.mulExact r (c.truncate (p + 4))).truncate p,
     (Binary.mulExact r (s.truncate (p + 4))).truncate p⟩

/-- Exponents from this size on are estimated again with as many bits more. -/
def largeTop : Int := 5

/-- The estimate of an exponent, and the bits used for it. -/
def exponent (e : Estimator) (target limit : Nat) : Option (Estimate × Nat) := do
  let w := target + 10
  let y ← e w limit
  match y.re with
  | some m =>
    if largeTop < m.top then
      let w := w + m.top.toNat
      return (← e w limit, w)
    else return (y, w)
  | none => return (y, w)

def exp (x : Estimator) : Estimator := fun target limit => do
  let (y, w) ← exponent x target limit
  match y.im with
  | some _ =>
    let z := expComplex w y.value
    return ofParts z.re z.im target
  | none =>
    return real (expInward target y.value.re) target

def power (base x : Estimator) : Estimator := fun target limit => do
  let (y, w) ← exponent x target limit
  if y == zero then return real Binary.one w
  let b ← base (w + 5) limit
  match y.re, y.im, b.re, b.im with
  | some m, none, none, none => if m.value.isNeg then none else return zero
  | some m, none, some b, none =>
    if b.value.isNeg then none else return real (powInward target b.value m.value) target
  | _, _, _, _ => none

/-! ### Functions -/

/-- A real argument; a number without one is out of reach. -/
def realArgument (x : Estimator) (bits limit : Nat) : Option Binary := do
  let e ← x bits limit
  match e.im with
  | none => return e.value.re
  | some _ => none

/-- Sine and cosine near their zeros, where the argument needs more bits. -/
def waveFrom (f : Nat → Binary → Binary) (x : Estimator) (target limit : Nat) (size : Int) :
    Nat → Nat → Binary → Option Estimate
  | 0, _, _ => none
  | rounds + 1, width, a => do
    let y := f target a
    let bits := width - size + y.top
    if (target : Int) ≤ bits || limit < width then return real y bits
    else
      let width := width + (-y.top).toNat
      waveFrom f x target limit size rounds width (← realArgument x width limit)

def waveGuard : Nat := 20

def wave (f : Nat → Binary → Binary) (x : Estimator) : Estimator := fun target limit => do
  let width := target + waveGuard
  let a ← realArgument x width limit
  if a.isZero || a.top < 1 then return real (f target a) target
  else if a.top < 10 then waveFrom f x target limit a.top sumRounds width a
  else
    let width := target + a.top.toNat
    waveFrom f x target limit a.top sumRounds width (← realArgument x width limit)

/-- The logarithm. Near one, the difference from one is estimated first. -/
def log (x : Estimator) : Estimator := fun target limit => do
  let width := target + 10
  let a ← x width limit
  match a.re, a.im with
  | none, none => none
  | some m, none =>
    let rough := Elementary.log target m.value.abs
    let y ← if rough.isZero || -10 ≤ rough.top then pure rough
      else do
        let minusOne : Estimator := fun p _ => some (real Binary.one.neg p)
        let d ← realArgument (sum [minusOne, x]) target limit
        let p := (width - d.top).toNat
        pure (Elementary.log target ((Binary.addExact d Binary.one).truncate p).abs)
    return ⟨Measure.of? y target,
      if m.value.isNeg then Measure.of? ((Elementary.pi (target + 40)).truncate target) target
      else none⟩
  | _, some _ =>
    let fine ← x (4 * target + 64) limit
    let w := target + 40
    return ⟨Measure.of? ((Elementary.log (2 * w) (Complex.normSq (4 * w) fine.value)).scale (-1)
        |>.round target) target,
      Measure.of? ((Elementary.atan2 w a.value.im a.value.re).truncate target) target⟩

def function (f : Nat → Binary → Option Binary) (x : Estimator) (guard : Nat) : Estimator :=
  fun target limit => do return real (← f target (← realArgument x (target + guard) limit)) target

def size (x : Estimator) : Estimator := fun target limit => do
  let e ← x (target + 2) limit
  match e.re, e.im with
  | some _, some _ => none
  | some m, none | none, some m => return ⟨some ⟨m.value.abs, m.bits⟩, none⟩
  | none, none => return zero

/-- Bits after which sums within an argument are given up. -/
def argumentLimit : Nat := 333

/-- The inverse of a function, rounded twice. -/
def inverse (f : Nat → Binary → Binary) (p : Nat) (x : Binary) : Option Binary :=
  let y := f (p + 10) x
  if y.isZero then none else some ((Binary.div (p + 10) Binary.one y).round p)

end Estimate

namespace Expr

open Estimate

def realFn? (f : Fn) (p : Nat) (x : Binary) : Option Binary := do
  let y ← (← approxFn (p + 40) f (.ofReal x)).real?
  if y.isZero then none else return y.round p

/-- An exact number cut to the bits wanted. -/
def exactEstimate (q : Rat) : Estimator := fun target _ =>
  some (real (.divTo .inward target (.ofInt q.num) (.ofInt q.den)) target)

def argumentOf (a : Expr) (x : Estimator) : Estimator :=
  match a with
  | .num (.exact q) => fun target _ =>
    some (real (if q.den = 1 then .ofInt q.num else .ofRat target q) target)
  | _ => x

def functionEstimate (f : Fn) (a : Expr) (x : Estimator) : Estimator :=
  let direct (f : Nat → Binary → Option Binary) : Estimator := fun target _ =>
    function f (argumentOf a x) 5 target argumentLimit
  match f with
  | .sin => wave Elementary.sin x
  | .cos => wave Elementary.cos x
  | .log => Estimate.log x
  | .atan => function (fun p y => some (Elementary.atan p y)) x 5
  | .abs => Estimate.size x
  | .sec => direct (inverse Elementary.cos)
  | .csc => direct (inverse Elementary.sin)
  | .cot => direct (inverse Elementary.tan)
  | .coth => direct (inverse Elementary.tanh)
  | .tan | .asin | .acos | .sinh | .cosh | .tanh | .asinh | .acosh | .atanh => direct (realFn? f)
  | .sign | .floor | .ceil | .factorial | .doubleFactorial => fun _ _ => none

def powerEstimate (a b : Expr) (base x : Estimator) : Estimator :=
  match b.int? with
  | some n => if n = 0 then fun target _ => some (real Binary.one target) else wholePower base n
  | none =>
    if b = half then squareRoot base
    else if a = .const .e then Estimate.exp x
    else Estimate.power base x

/-- A number with an imaginary part that is a number. -/
def isPlainComplex : Expr → Bool
  | .add (.num _) (.const .i) | .add (.num _) (.mul (.num _) (.const .i)) => true
  | _ => false

inductive Chain where
  | sum | product | alone
  deriving DecidableEq, Repr

/-- The estimators of the members of a chain of that kind, or of the expression alone. -/
def estimators (chain : Chain) : Expr → List Estimator
  | .num (.exact q) => [exactEstimate q]
  | .num (.rounded _ x) => [fun target _ => some (real x target)]
  | .const .pi =>
    [fun target _ => some (real ((Elementary.pi (target + 40)).truncate target) target)]
  | .const .e => [fun target _ => some (real (expInward target Binary.one) target)]
  | .const .i => [fun target _ => some (Estimate.imaginary Binary.one target)]
  | .add a b =>
    let members := estimators .sum a ++ estimators .sum b
    if chain = .sum then members
    else if isPlainComplex (.add a b) then [fun target limit => do
      let es ← members.mapM fun e => e target limit
      return ⟨es.findSome? Estimate.re, es.findSome? Estimate.im⟩]
    else [Estimate.sum members]
  | .mul a b =>
    let members := estimators .product a ++ estimators .product b
    if chain = .product then members
    else if isNumber a && b = .const .i then
      members.head?.toList.map fun e target limit => (e target limit).map (Estimate.turned 1)
    else [Estimate.product members]
  | .pow a b =>
    let one (es : List Estimator) : Estimator := es.head?.getD fun _ _ => none
    [powerEstimate a b (one (estimators .alone a)) (one (estimators .alone b))]
  | .fn f a =>
    [functionEstimate f a ((estimators .alone a).head?.getD fun _ _ => none)]
  | _ => [fun _ _ => none]

def finalBits : Nat := Scalar.doubleBits + Scalar.roundingBits

/-- Sums that cancel are estimated with about this many bits more before they are given up. -/
def finalLimit : Nat := 332

/-- A part with the bits of it that hold, at least one and at most those of a double. -/
def settled (m : Option Measure) : Binary :=
  match m with
  | none => Binary.zero
  | some m => m.value.round (max 1 (min (Scalar.doubleBits : Int) m.bits)).toNat

/-- The value of a constant with the bits of a double; the last bits that are known of it, where
it cancels almost or wholly. -/
def estimate? (e : Expr) : Option Complex := do
  let e ← (← (estimators .alone e).head?) finalBits finalLimit
  return ⟨settled e.re, settled e.im⟩

end Expr

end Formulary
