import Formulary.Calc.Trigonometry

/-! # Inverse functions

Inverse circular functions give fractions of a half turn at the radicals that are
sines and tangents of such fractions. An inverse function of the function itself
at a real constant gives the constant back, brought into its range.
-/

namespace Formulary.Expr

/-! ### Known values -/

def root (n : Int) : Expr := sqrt (ofInt n)

def scaledSum (c : Rat) (a b : Expr) : Expr := product [ofRat c, sum [a, b]]

/-- `(√3 ± 1) / √8`. -/
def twelfth (sign : Int) : Expr :=
  product [sum [root 3, ofInt sign], power (ofInt 8) (ofRat (-1 / 2))]

/-- `√(5 ± √5) √2 / 4`. -/
def tenth (sign : Int) : Expr :=
  product [ofRat (1 / 4), root 2, sqrt (sum [ofInt 5, product [ofInt sign, root 5]])]

/-- `√(2 ± √2) / 2`. -/
def eighth (sign : Int) : Expr :=
  product [half, sqrt (sum [ofInt 2, product [ofInt sign, root 2]])]

def knownSines : List (Expr × Rat) :=
  [(product [half, root 3], 1 / 3), (product [half, root 2], 1 / 4),
   (sqrt (product [ofRat (1 / 8), difference (ofInt 5) (root 5)]), 1 / 5), (tenth (-1), 1 / 5),
   (sqrt (product [ofRat (1 / 8), sum [ofInt 5, root 5]]), 2 / 5), (tenth 1, 2 / 5),
   (half, 1 / 6), (eighth (-1), 1 / 8),
   (sqrt (difference half (product [ofRat (1 / 4), root 2])), 1 / 8), (eighth 1, 3 / 8),
   (sqrt (sum [half, product [ofRat (1 / 4), root 2]]), 3 / 8),
   (scaledSum (1 / 4) (root 5) minusOne, 1 / 10), (scaledSum (-1 / 4) (root 5) minusOne, -1 / 10),
   (scaledSum (1 / 4) (root 5) one, 3 / 10),
   (scaledSum (1 / 4) (root 6) (negate (root 2)), 1 / 12),
   (scaledSum (-1 / 4) (root 6) (negate (root 2)), -1 / 12),
   (twelfth (-1), 1 / 12), (scaledSum (1 / 4) (root 6) (root 2), 5 / 12), (twelfth 1, 5 / 12)]

def knownTangents : List (Expr × Rat) :=
  [(product [ofRat (1 / 3), root 3], 1 / 6), (root 3, 1 / 3),
   (sum [root 2, minusOne], 1 / 8), (difference one (root 2), -1 / 8), (sum [one, root 2], 3 / 8),
   (sqrt (difference (ofInt 5) (product [ofInt 2, root 5])), 1 / 5),
   (sqrt (sum [ofInt 5, product [ofInt 2, root 5]]), 2 / 5),
   (sqrt (sum [one, product [ofRat (-2 / 5), root 5]]), 1 / 10),
   (sqrt (sum [one, product [ofRat (2 / 5), root 5]]), 3 / 10),
   (difference (ofInt 2) (root 3), 1 / 12), (difference (root 3) (ofInt 2), -1 / 12),
   (sum [ofInt 2, root 3], 5 / 12)]

/-- Cosines of the angles `q π` up to a quarter turn that the hyperbolic inverse knows too. -/
def knownCosines : List (Expr × Rat) :=
  [(half, 1 / 3), (product [half, root 2], 1 / 4), (product [half, root 3], 1 / 6),
   (twelfth (-1), 5 / 12), (eighth 1, 1 / 8), (eighth (-1), 3 / 8), (twelfth 1, 1 / 12),
   (scaledSum (1 / 4) (root 5) one, 1 / 5)]

/-! ### Angles in range -/

def angleOfSine? (θ : Expr) : Option Expr := do
  let a ← withinPeriod? (piTimes 2) θ
  let a := if isAbove a pi then difference pi a else a
  let a := if isAbove a halfPi then difference pi a else a
  return if isAbove (negate halfPi) a then difference (negate pi) a else a

def angleOfCosine? (θ : Expr) : Option Expr := do
  let a ← withinPeriod? (piTimes 2) θ
  return if isAbove a pi then difference (piTimes 2) a else a

/-- The angle with the tangent of `θ` between a quarter turn below and above zero. -/
def angleOfTangent? (θ : Expr) : Option Expr := do
  let a ← withinPeriod? pi θ
  return if isAbove a halfPi then difference a pi else a

/-- The angle with the cotangent of `θ`, as the inverse tangent gives it. -/
def angleOfCotangent? (θ : Expr) : Option Expr := do
  let a := difference halfPi (← angleOfTangent? θ)
  return if isAbove a halfPi then difference a pi else a

/-- What an inverse circular function gives of a circular function of a real constant. -/
def undone? (f : Fn) (a : Expr) : Option Expr :=
  match f, a with
  | .asin, .fn .sin θ => angleOfSine? θ
  | .asin, .fn .cos θ => (angleOfCosine? θ).map (difference halfPi)
  | .acos, .fn .cos θ => angleOfCosine? θ
  | .acos, .fn .sin θ => (angleOfSine? θ).map (difference halfPi)
  | .acos, .mul (.num (.exact (-1))) (.fn .cos θ) => angleOfCosine? (difference pi θ)
  | .acos, .mul (.num (.exact (-1))) (.fn .sin θ) =>
    (angleOfSine? θ).map fun t => sum [halfPi, t]
  | .atan, .fn .tan θ => angleOfTangent? θ
  | .atan, .fn .cot θ => angleOfCotangent? θ
  | .asinh, .fn .sinh x | .atanh, .fn .tanh x => if (realValue? x).isSome then some x else none
  | .acosh, .fn .cosh x => (sign? x).map fun s => if s < 0 then negate x else x
  | _, _ => none

/-! ### The functions -/

def inverseAtInt? (f : Fn) (n : Int) : Option Expr :=
  match f with
  | .asin => if n = 0 then some zero else if n = 1 then some halfPi else none
  | .acos =>
    if n = 0 then some halfPi else if n = 1 then some zero else if n = -1 then some pi else none
  | .atan => if n = 0 then some zero else if n = 1 then some (piTimes (1 / 4)) else none
  | .asinh =>
    if n = 0 then some zero
    else if n = 1 then some (.fn .log (sum [root 2, one]))
    else if n = -1 then some (.fn .log (sum [root 2, minusOne]))
    else none
  | .acosh =>
    if n = 0 then some (imaginary halfPi) else if n = 1 then some zero
    else if n = -1 then some piI else none
  | .atanh =>
    if n = 0 then some zero else if n = 1 then some (infinity false)
    else if n = -1 then some (infinity true) else none
  | _ => none

/-- The fraction of a half turn that an inverse function gives at a known radical. -/
def knownAngle? (f : Fn) (a : Expr) : Option Expr :=
  match f with
  | .asin => (knownSines.lookup a).map piTimes
  | .acos =>
    ((knownSines.lookup a).map fun q => piTimes (1 / 2 - q)).or
      ((knownSines.lookup (negate a)).map fun q => piTimes (1 / 2 + q))
  | .atan => (knownTangents.lookup a).map piTimes
  | .acosh =>
    ((knownCosines.lookup a).map fun q => imaginary (piTimes q)).or
      ((knownCosines.lookup (negate a)).map fun q => imaginary (piTimes (1 - q)))
  | _ => none

/-- `f (i x)` where it is `i` times another inverse function of `x`. -/
def inverseTurned? : Fn → Option Fn
  | .asin => some .asinh
  | .atan => some .atanh
  | .asinh => some .asin
  | .atanh => some .atan
  | _ => none

def roundedInverse (f : Fn) (p : Nat) (x : Binary) : Expr :=
  if x.isZero then (inverseAtInt? f 0).getD zero
  else if f = .atanh && x.abs.eq Binary.one then infinity x.isNeg
  else roundedFn f p x

/-- An inverse function where it does not stand as it is; the first argument bounds the number of
rules applied one after the other. -/
def inverseWave? : Nat → Fn → Expr → Option Expr
  | 0, _, _ => none
  | n + 1, f, a =>
    let go (g : Fn) (x : Expr) : Expr := (inverseWave? n g x).getD (.fn g x)
    match a with
    | .failed _ | .interval => some a
    | .num (.rounded p x) => some (roundedInverse f p x)
    | .num (.infinite s) => some (atSingular f (.infinite s))
    | .num .pole => some (atSingular f .pole)
    | .num .undefined => some undefined
    | a =>
      match a.int?.bind (inverseAtInt? f) with
      | some e => some e
      | none =>
        if isOdd f && leadsMinus a then some (negate (go f (negate a)))
        else match knownAngle? f a with
        | some e => some e
        | none =>
          match imaginaryFactor? a with
          | some x =>
            match inverseTurned? f with
            | some g => some (imaginary (go g x))
            | none => if f = .acos then some (difference halfPi (go .asin a)) else undone? f a
          | none => undone? f a

def ofInverse (f : Fn) (a : Expr) : Expr := (inverseWave? ruleLimit f a).getD (.fn f a)

def atan2 (y x : Expr) : Expr :=
  match firstFault? [y, x] with
  | some f => .failed f
  | none =>
    let nx := nature x
    let ny := nature y
    match x with
    | .num (.infinite negative) =>
      match sign? y with
      | some s => if negative then if s < 0 then negate pi else pi else zero
      | none => if negative then .fn2 .atan2 y x else zero
    | x =>
      if nx.isPos && ny.isReal then ofInverse .atan (quotient y x)
      else if nx.isNeg && ny.isNeg then difference (ofInverse .atan (quotient y x)) pi
      else if nx.isNeg && ny.notNeg then sum [ofInverse .atan (quotient y x), pi]
      else match sign? x, sign? y with
      | some _, some sy =>
        if sy = 0 then undefined else if sy < 0 then negate halfPi else halfPi
      | _, _ =>
        if x.isConstant && y.isConstant && !x.hasSingular && !y.hasSingular then
          negate (imaginary (log (quotient (sum [x, imaginary y])
            (sqrt (sum [power x (ofInt 2), power y (ofInt 2)])))))
        else .fn2 .atan2 y x

end Formulary.Expr
