import Formulary.Calc.Logarithm

/-! # Circular and hyperbolic functions

Signs, the imaginary unit and quarter turns come out of the argument, and inverse
functions in it are undone through the legs of their triangle. What is left
stands as it is.
-/

namespace Formulary.Expr

def isOdd : Fn → Bool
  | .sin | .tan | .csc | .cot | .asin | .atan | .sinh | .tanh | .coth | .asinh | .atanh => true
  | _ => false

def isHyperbolic : Fn → Bool
  | .sinh | .cosh | .tanh | .coth => true
  | _ => false

/-- Values at infinity and at poles. -/
def atSingular (f : Fn) (s : Scalar) : Expr :=
  match s with
  | .infinite negative =>
    match f with
    | .sin | .cos => .interval
    | .atan => piTimes (if negative then -1 / 2 else 1 / 2)
    | .sinh | .asinh => infinity negative
    | .cosh | .acosh => infinity false
    | .tanh | .coth => ofInt (if negative then -1 else 1)
    | .atanh => imaginary (piTimes (if negative then 1 / 2 else -1 / 2))
    | .asin | .acos => pole
    | _ => undefined
  | .pole =>
    match f with
    | .atan | .atanh => .interval
    | .asin | .acos | .asinh | .acosh => pole
    | _ => undefined
  | _ => undefined

def atZero (f : Fn) : Expr :=
  match f with
  | .cos | .sec | .cosh => one
  | .cot | .csc | .coth => pole
  | _ => zero

/-! ### Legs -/

def square (a : Expr) : Expr := power a (ofInt 2)

def inverseRoot (a : Expr) : Expr := power a (ofRat (-1 / 2))

/-- Sine and cosine of an angle that is given by an inverse function. -/
def circularLegs? : Expr → Option (Expr × Expr)
  | .fn .asin x => some (x, sqrt (difference one (square x)))
  | .fn .acos x => some (sqrt (difference one (square x)), x)
  | .fn .atan x =>
    let h := inverseRoot (sum [one, square x])
    some (product [x, h], h)
  | .fn2 .atan2 y x =>
    let h := inverseRoot (sum [square x, square y])
    some (product [y, h], product [x, h])
  | _ => none

/-- Hyperbolic sine and cosine of what an inverse function gives. -/
def hyperbolicLegs? : Expr → Option (Expr × Expr)
  | .fn .asinh x => some (x, sqrt (sum [one, square x]))
  | .fn .acosh x => some (product [sqrt (sum [x, minusOne]), sqrt (sum [x, one])], x)
  | .fn .atanh x =>
    let h := inverseRoot (difference one (square x))
    some (product [x, h], h)
  | _ => none

/-- A function undone or carried to the other legs. -/
def ofLegs? (f : Fn) (a : Expr) : Option Expr := do
  let (y, x) ← if isHyperbolic f then hyperbolicLegs? a else circularLegs? a
  match f with
  | .sin | .sinh => some y
  | .cos | .cosh => some x
  | .tan | .tanh => some (quotient y x)
  | .cot | .coth => some (quotient x y)
  | _ => none

/-! ### Shifts -/

/-- The function that a quarter turn in the argument makes of another, and whether its sign
changes. -/
def shiftOnce : Fn → Bool × Fn
  | .sin => (false, .cos)
  | .cos => (true, .sin)
  | .tan => (true, .cot)
  | .cot => (true, .tan)
  | f => (false, f)

/-- The function after so many quarter turns. -/
def shift : Nat → Bool × Fn → Bool × Fn
  | 0, p => p
  | n + 1, p =>
    let (flips, f) := shiftOnce p.2
    shift n (p.1 != flips, f)

/-- A circular function after half turns that are not a number and so many quarter turns is a factor
times another. A tangent loses the quarter beside them. -/
def shiftWhole (f : Fn) (turns : Expr) (quarters : Int) : Expr × Fn :=
  let odd : Bool := quarters % 2 = 1
  let sign := power minusOne (sum [turns, ofInt (quarters / 2)])
  match f with
  | .sin => (sign, if odd then .cos else .sin)
  | .cos => if odd then (negate sign, .sin) else (sign, .cos)
  | .cot => if odd then (minusOne, .tan) else (one, .cot)
  | f => (one, f)

/-- A hyperbolic function after so many times `π i / 2` is a factor times another. -/
def shiftImaginary (f : Fn) (quarters : Int) : Expr × Fn :=
  let k := (quarters % 4).toNat
  let unit := (Expr.const .i, minusOne, negate (.const .i))
  match f, k with
  | f, 0 => (one, f)
  | .sinh, 1 => (unit.1, .cosh)
  | .sinh, 2 => (unit.2.1, .sinh)
  | .sinh, _ => (unit.2.2, .cosh)
  | .cosh, 1 => (unit.1, .sinh)
  | .cosh, 2 => (unit.2.1, .cosh)
  | .cosh, _ => (unit.2.2, .sinh)
  | .tanh, 2 => (one, .tanh)
  | .tanh, _ => (one, .coth)
  | .coth, 2 => (one, .coth)
  | .coth, _ => (one, .tanh)
  | f, _ => (one, f)

def piI : Expr := imaginary pi

/-- The first term that is a fraction of `π i` in a sum: the sum without the quarters in it, and
their number. -/
def peelImaginary? (a : Expr) : Option (Expr × Int) :=
  if !isSum a then none
  else do
    let q ← (terms a).findSome? halfTurns?
    let quarters : Int := (2 * q).floor
    if quarters = 0 then none
    else some (difference a (product [ofRat (mkRat quarters 2), piI]), quarters)

/-- `f (i x)` is a factor times another function of `x`. -/
def turned (f : Fn) : Expr × Fn :=
  match f with
  | .sin => (.const .i, .sinh)
  | .cos => (one, .cosh)
  | .tan => (.const .i, .tanh)
  | .cot => (negate (.const .i), .coth)
  | .sinh => (.const .i, .sin)
  | .cosh => (one, .cos)
  | .tanh => (.const .i, .tan)
  | .coth => (negate (.const .i), .cot)
  | f => (one, f)

/-! ### The functions -/

def withParity (f : Fn) (e : Expr) : Expr := if isOdd f then negate e else e

/-- A circular or hyperbolic function where it does not stand as it is; the first argument bounds
the number of rules applied one after the other. -/
def wave? : Nat → Fn → Expr → Option Expr
  | 0, _, _ => none
  | n + 1, f, a =>
    let go (g : Fn) (x : Expr) : Expr := (wave? n g x).getD (.fn g x)
    match a with
    | .failed _ | .interval => some a
    | .num (.rounded p x) => some (if x.isZero then atZero f else roundedFn f p x)
    | .num (.exact q) =>
      if q = 0 then some (atZero f)
      else if q < 0 then some (withParity f (go f (negate a)))
      else none
    | .num s => some (atSingular f s)
    | a =>
      match imaginaryFactor? a with
      | some x =>
        let (factor, g) := turned f
        some (product [factor, go g x])
      | none =>
        if leadsMinus a then some (withParity f (go f (negate a)))
        else if isHyperbolic f then
          match peelImaginary? a with
          | some (x, quarters) =>
            let (factor, g) := shiftImaginary f quarters
            some (product [factor, go g x])
          | none => ofLegs? f a
        else
          match turn a with
          | .half q =>
            let e := circularAt f q
            if e = .fn f a then none else some e
          | .whole x =>
            some (match f with
              | .cos => power minusOne x
              | .cot => pole
              | _ => zero)
          | .wholeAndHalf x =>
            match f with
            | .sin => some (power minusOne x)
            | .cos => some zero
            | f =>
              let b := product [sum [x, half], pi]
              if b = a then none else some (go f b)
          | .scaled b => if b = a then none else some (go f b)
          | .free =>
            match peelTurns? a with
            | some ⟨x, turns, quarters⟩ =>
              if turns = zero then
                let (flips, g) := shift (quarters % 4).toNat (false, f)
                some (if flips then negate (go g x) else go g x)
              else
                let (factor, g) := shiftWhole f turns quarters
                some (product [factor, go g x])
            | none => ofLegs? f a

def ruleLimit : Nat := 12

def wave (f : Fn) (a : Expr) : Expr := (wave? ruleLimit f a).getD (.fn f a)

def inverseOf (t : Expr) : Expr :=
  match t with
  | .fn .cos x => .fn .sec x
  | .fn .sin x => .fn .csc x
  | t =>
    match negate t with
    | .fn .cos x => negate (.fn .sec x)
    | .fn .sin x => negate (.fn .csc x)
    | _ => reciprocal t

def inverseWave (f : Fn) (a : Expr) : Expr :=
  let base := if f = .sec then Fn.cos else Fn.sin
  let ofArgument (a : Expr) : Expr :=
    match turn a with
    | .half q => circularAt f q
    | _ => ((wave? ruleLimit base a).map inverseOf).getD (.fn f a)
  match a with
  | .failed _ | .interval => a
  | .num (.rounded p x) => if x.isZero then atZero f else roundedFn f p x
  | .num (.exact q) =>
    if q = 0 then atZero f
    else if q < 0 then withParity f (.fn f (negate a))
    else .fn f a
  | .num s => atSingular f s
  | a => if leadsMinus a then withParity f (ofArgument (negate a)) else ofArgument a

end Formulary.Expr
