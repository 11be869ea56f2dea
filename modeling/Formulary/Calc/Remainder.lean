import Formulary.Calc.CommonFactor
import Formulary.Calc.Whole
import Formulary.Number.Decimal

/-! # Remainders

What a whole number of divisors leaves of a dividend, with the sign of the
divisor. The number is found where the quotient is a real constant; the sign is
only set right where it is known. Otherwise common factors come out, and terms of
the dividend are reduced one by one.
-/

namespace Formulary.Expr

def roundedBits : Expr → Nat
  | .num (.rounded p _) => p
  | .add a b | .mul a b | .pow a b | .fn2 _ a b | .pair a b => max (roundedBits a) (roundedBits b)
  | .fn _ a | .unknown _ a => roundedBits a
  | _ => 0

/-- The nearest count of hundredths; all of them are known where nothing is rounded. -/
def hundredths (bits : Nat) (x : Binary) : Int :=
  let digits := Scalar.digitsFor bits
  let d := Decimal.significant digits x.mant.natAbs x.exp
  if bits = 0 || d.power + 3 ≤ digits then
    (Binary.add decisionBits (.mulExact x (.ofInt 100)) Binary.half).floor
  else
    let n : Nat := Text.digitsValue d.digits * Nat.pow 10 (d.power + 3 - d.digits.length).toNat
    if x.isNeg then -n else n

/-- The whole part of a real constant towards zero; next to a whole number, the one below. -/
def truncation (bits : Nat) (x : Binary) : Int :=
  let h := hundredths bits x
  let n := h / 100
  if h % 100 ≠ 0 then Int.tdiv h 100
  else if n = 0 then 0
  else
    let d := Binary.addExact x (.ofInt (-n))
    if d.isNeg && -(decisionBits / 2 : Nat) ≤ d.top then n - 1 else n

def truncated? (r : Expr) : Option Int :=
  match r with
  | .num (.exact q) => some (Int.tdiv q.num q.den)
  | .num (.rounded p x) =>
    if (Scalar.rounded p x).isFar then none
    else some (if x.isNeg then -x.neg.floor else x.floor)
  | r => (realValue? r).bind fun x =>
    if x.top > 2 * decisionBits then none else some (truncation (roundedBits r) x)

/-- The dividend without so many divisors; one more is added where the sign is known to be wrong. -/
def withoutTimes (p q : Expr) (times : Int) : Expr :=
  let left := difference p (product [ofInt times, q])
  if (nature (product [left, q])).isNeg then sum [left, q] else left

def isMod : Expr → Bool
  | .fn2 .mod _ _ => true
  | _ => false

/-- A remainder that is known without taking the dividend apart. -/
def remainderNow? (p q : Expr) : Option Expr :=
  if q.scalar?.any Scalar.isZero then some (.failed .divisionByZero)
  else if p.hasSingular || q.hasSingular then some undefined
  else if p = zero || p = q || p = negate q || q = one && (nature p).isWhole then some zero
  else
    match p, q with
    | .num s, .num t => some (((s.mod? t).map Expr.num).getD (.fn2 .mod p q))
    | p, q =>
      let r := quotient p q
      if (nature r).isWhole then some zero else (truncated? r).map (withoutTimes p q)

def countMods : Expr → Nat
  | .fn2 f a b => countMods a + countMods b + if f = .mod then 1 else 0
  | .add a b | .mul a b | .pow a b | .pair a b => countMods a + countMods b
  | .fn _ a | .unknown _ a => countMods a
  | _ => 0

/-- A dividend that is a remainder itself, or a sum with remainders by the same divisor. -/
def flattened? (mod : Expr → Expr → Expr) (p q : Expr) : Option Expr :=
  match p, negate p with
  | .fn2 .mod a m, _ =>
    if mod m q = zero then some (mod a q)
    else if (nature (product [m, difference q m])).notNeg then some p
    else none
  | _, .fn2 .mod a m =>
    if mod m q = zero then some (mod (negate a) q)
    else if (nature (product [m, sum [q, m]])).notPos then some p
    else none
  | p, _ =>
    let inner := (terms p).filter isMod
    let same := inner.all fun t => match t with
      | .fn2 .mod _ m => m == q
      | _ => false
    if inner.isEmpty || !same || !isSum p then none
    else some (mod (sum ((terms p).map fun t => match t with
      | .fn2 .mod a _ => a
      | t => t)) q)

def isRoundedOne : Scalar → Bool
  | .rounded _ x => x.eq Binary.one
  | _ => false

/-- Each term is reduced, unless that makes a remainder of it. -/
def reduceTerms (mod : Expr → Expr → Expr) (p q : Expr) : Expr :=
  let reduced := (terms p).map fun t =>
    let r := mod t q
    if countMods t < countMods r then t else r
  if reduced = terms p then p else sum reduced

/-- Rounded coefficients of which one divides the other: the factor that comes out, dividend and
divisor. -/
def reduceRounded (g p q : Expr) : Expr × Expr × Expr :=
  match splitTerm p, splitTerm q with
  | (s, a), (t, b) =>
    let exact : Bool := match s, t with
      | .exact _, .exact _ => true
      | _, _ => false
    if exact || t.isZero || !((s.mod? t).any Scalar.isZero) then (g, p, q)
    else
      let times := ((s.div t).toBinary decisionBits).floor
      (product [g, .num t], product [a.getD one, ofInt times], b.getD one)

/-- The remainder of an expression; the first argument bounds the steps. -/
def modIn : Nat → Expr → Expr → Expr
  | 0, p, q => .fn2 .mod p q
  | n + 1, p, q =>
    match (remainderNow? p q).or (flattened? (modIn n) p q) with
    | some e => e
    | none =>
      let g := commonFactor p q
      let plain := g = one || g.scalar?.any isRoundedOne
      let a := if plain then p else divideOut p g
      let b := if plain then q else divideOut q g
      let (g, p, q) :=
        if isSum a then (g, reduceTerms (modIn n) a b, b) else reduceRounded g a b
      let (g, p, q) :=
        if leadsMinus p && leadsMinus q then (negate g, negate p, negate q) else (g, p, q)
      match remainderNow? p q with
      | some e => product [e, g]
      | none =>
        match splitTerm g with
        | (c, none) =>
          if isRoundedOne c then .fn2 .mod (product [p, g]) q
          else product [g, if (p, q) = (a, b) then .fn2 .mod p q else modIn n p q]
        | (c, some h) =>
          let p' := if isRoundedOne c then product [.num c, p] else p
          let g' := if isRoundedOne c then h else g
          product [g', if (p', q) = (a, b) then .fn2 .mod p' q else modIn n p' q]

def modSteps : Nat := 8

def mod (p q : Expr) : Expr :=
  match firstFault? [p, q] with
  | some f => .failed f
  | none => modIn modSteps p q

end Formulary.Expr
