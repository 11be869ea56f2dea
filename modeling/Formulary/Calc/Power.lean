import Formulary.Calc.Product

/-! # Powers

A power of two numbers is a number or a root; a product under a whole exponent
falls apart into powers, and under a fraction gives off the members that are not
below zero. Bases below zero take the principal value, and a power whose exponent
is a fraction under the logarithm of the base is a power of `e`.
-/

namespace Formulary.Expr

def ofComplex (p : Nat) (z : Complex) : Expr :=
  let re := Expr.num (.settle p z.re)
  let im := Expr.mul (.num (.settle p z.im)) (.const .i)
  if z.im.isZero then re else if z.re.isZero then im else .add re im

def roundedPower (p : Nat) (s t : Scalar) : Expr :=
  let x := s.toBinary p
  let y := t.toBinary p
  if !x.isNeg then .num (.settle p (Elementary.pow p x y))
  else
    match s, t with
    | .rounded .., .exact r =>
      if r.num = 1 && r.den % 2 = 1 then
        let (c, roots) := rootPowers (Radical.ofPower (-1) r)
        ofPowers (c.mul (.round p (Elementary.pow p x.neg y))) roots
      else ofComplex p ((Complex.pow (2 * p) (.ofReal x) (.ofReal y)).clean (2 * p))
    | _, _ => ofComplex p ((Complex.pow (2 * p) (.ofReal x) (.ofReal y)).clean (2 * p))

def infinitePower (s : Scalar) (negative : Bool) : Expr :=
  match s.size.compare? .one with
  | some .lt => if negative then if s.isZero then pole else .num (.infinite false) else zero
  | some .gt => if negative then zero else if s.isNeg then pole else .num (.infinite false)
  | _ => undefined

def scalarPower (s t : Scalar) : Expr :=
  match s, t with
  | .undefined, _ | _, .undefined | _, .pole => undefined
  | _, .infinite negative => infinitePower s negative
  | .pole, _ => if t.isZero then undefined else if t.isPos then pole else zero
  | .infinite negative, _ =>
    match t.int? with
    | some n => .num (s.powInt n)
    | none => if t.isNeg then zero else if negative then pole else .num (.infinite false)
  | .exact q, .exact r =>
    let (c, roots) := fractionPower q r
    ofPowers c roots
  | _, _ =>
    let p := Scalar.commonBits s t
    if s = .one then one
    else if s.isZero then
      if t.isNeg then pole else if t.isPos then .num s
      else match s with
        | .exact _ => one
        | _ => .num (.round p Binary.one)
    else
      let whole : Bool := match t with
        | .exact r => r.den == 1
        | _ => (t.toBinary p).isInteger && (t.toBinary p).top ≤ 64
      if whole then .num (.powInt (.round p (s.toBinary p)) (t.toBinary (p + 64)).floor)
      else roundedPower p s t

/-- Is `e` a fraction of two, so that a sign under it becomes a quarter turn? -/
def isHalved (e : Expr) : Bool :=
  match e with
  | .num (.exact r) => r.den == 2
  | .mul (.num (.exact r)) x => r.den == 2 && (nature x).isWhole
  | _ => false

/-- Is `e` a real constant strictly between -1 and 1? -/
def isProper (e : Expr) : Bool :=
  (realValue? e).any fun x => Binary.lt x.abs Binary.one

/-- The power of a base that is zero or infinite, where the sign of the exponent is known. -/
def edgePower? (b e : Expr) : Option Expr :=
  let n := nature e
  match b with
  | .num (.exact 0) =>
    if n.isPos then some zero
    else if n.isNeg then some pole
    else if isConstant e then some (if (realValue? e).isSome then one else undefined)
    else
      let (s, ps) := zeroPower e
      some (ofPowers s ps)
  | .num (.rounded p x) =>
    if !x.isZero then none
    else if n.isPos then some (.num (.rounded p x))
    else if n.isNeg then some pole
    else none
  | .num (.infinite negative) =>
    (sign? e).map fun s => if s < 0 then zero else if negative then pole else .num (.infinite false)
  | .num .pole => (sign? e).map fun s => if s < 0 then zero else pole
  | _ => none

def realSize (a : Expr) : Expr :=
  let n := nature a
  if n.notNeg then a
  else if n.notPos then negate a
  else .fn .abs (if leadsMinus a then negate a else a)

def nestedPower? (b e x : Expr) : Option Expr :=
  let ofBase (b e : Expr) : Expr := ofPowers .one [(b, e)]
  let n := nature b
  if (nature x).isWhole then some (ofBase b (product [e, x]))
  else if !(nature e).isReal then none
  else if e = minusOne && isHalved x && n.isNeg then
    some (ofPowers .one [(minusOne, x), (negate b, negate x)])
  else if e = minusOne && isHalved x && (n.notNeg || isConstant b) then
    some (ofBase b (negate x))
  else
    let b := if (nature e).isEven && n.isReal then realSize b else b
    if isProper e || (nature b).notNeg then some (ofBase b (product [e, x])) else none

/-- Members of a product that may leave it under an exponent that is not whole, and those that stay:
members known not to be below zero leave it. Of members below zero two leave with their signs
changed, and a coefficient leaves its sign behind. -/
def releasePowers (b : Expr) : List Expr × List Expr :=
  let (above, others) := (factors b).partition fun f => (nature f).notNeg
  let (below, rest) := others.partition fun f => (nature f).isNeg
  match below with
  | [] => (above, rest)
  | [n] =>
    if isNumber n && n != minusOne && !rest.isEmpty then (above ++ [negate n], minusOne :: rest)
    else (above, n :: rest)
  | n :: more =>
    let (sign, flipped) := if rest.isEmpty && isNumber n then (n, more) else (one, n :: more)
    let sign := if flipped.length % 2 = 1 then negate sign else sign
    (above ++ flipped.map negate, if sign = one then rest else sign :: rest)

def memberPower (b e : Expr) : Expr :=
  match b, e with
  | .num s, .num t => scalarPower s t
  | .pow b' e', e => (nestedPower? b' e' e).getD (.pow b e)
  | b, e => ofPowers .one [(b, e)]

def generalPower (b e : Expr) : Expr :=
  match e.int?, b with
  | some n, _ => ofPowers .one (raise b n)
  | none, .const .i =>
    match e with
    | .num (.rounded p y) =>
      ofComplex p ((Complex.pow (2 * p) .imaginaryUnit (.ofReal y)).clean (2 * p))
    | _ => ofPowers .one [(minusOne, product [half, e])]
  | none, .pow b' e' => (nestedPower? b' e' e).getD (.pow b e)
  | none, .mul .. =>
    if isNumber e then
      let (released, rest) := releasePowers b
      if released.isEmpty then .pow b e
      else
        let left := match rest with
          | [] => one
          | [b] => memberPower b e
          | rest => .pow (mulChain (inOrder rest)) e
        product (left :: released.map (memberPower · e))
    else .pow b e
  | none, .add .. | none, .num (.exact (-1)) => ofPowers .one [(b, e)]
  | none, b => .pow b e

/-! ### Exponents below which the logarithm of the base stands -/

def denominators (e : Expr) : List Expr :=
  (factors e).filterMap fun f =>
    match f with
    | .pow b x => if isTermNeg x then some (.pow b (negate x)) else none
    | _ => none

/-- Is exactly `l` below the bar? -/
def isBelow (l : Expr) (below : List Expr) : Bool := below == [.pow l one]

/-- What stands below the bar in every term. -/
def commonDenominators (es : List Expr) : List Expr :=
  match es.map denominators with
  | [] => []
  | d :: ds => d.filter fun f => ds.all fun other => other.contains f

/-- The exponent of `e` in `b ^ x` if `x` is a fraction under the logarithm of the base. -/
def exponentOfE? (b x : Expr) : Option Expr :=
  let l := Expr.fn .log b
  let ts := terms x
  if isBelow l (commonDenominators ts) then some (sum (ts.map fun t => product [t, l])) else none

def exp (x : Expr) : Expr :=
  match x with
  | .failed f => .failed f
  | .num .undefined | .num .pole => undefined
  | .interval => .interval
  | x =>
    let (s, ps) := expPowers x
    ofPowers s ps

def power (b e : Expr) : Expr :=
  match firstFault? [b, e] with
  | some f => .failed f
  | none =>
    if e = zero then one
    else if e = one then b
    else match b, e with
    | .num s, .num t => scalarPower s t
    | .num .undefined, _ | _, .num .undefined | _, .num .pole => undefined
    | .interval, _ | _, .interval => .interval
    | .const .e, e => exp e
    | .num (.exact 1), _ => one
    | b, .num (.infinite negative) =>
      match realValue? b with
      | some x => infinitePower (.rounded decisionBits x) negative
      | none => .pow b e
    | b, e =>
      match exponentOfE? b e with
      | some x => exp x
      | none => (edgePower? b e).getD (generalPower b e)

def quotient (a b : Expr) : Expr :=
  match a, b with
  | .num s, .num t => .num (s.div t)
  | a, b => product [a, power b minusOne]

def sqrt (e : Expr) : Expr := power e half

def imaginary (e : Expr) : Expr := product [.const .i, e]

end Formulary.Expr
