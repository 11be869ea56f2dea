import Formulary.Calc.Inverse

/-! # Size and sign

The size of a product is the product of the sizes that are known and the size of
the rest; below a bar without symbols above it sizes divide. The sign of a product
drops the factors above zero.
-/

namespace Formulary.Expr

/-! ### Signs of sums -/

/-- Sums are turned so that they do not give way to their negatives; whether the sign of the whole
has changed is told beside. -/
def settleSigns : Expr → Bool × Expr
  | .add a b =>
    let e := Expr.add a b
    if leadsMinus e then (true, negate e) else (false, e)
  | .mul a b =>
    let (s, x) := settleSigns a
    let (t, y) := settleSigns b
    (s != t, if s || t then product [x, y] else .mul x y)
  | .pow a x =>
    match settleSigns a, x.int? with
    | (true, b), some n => (n % 2 = 1, power b x)
    | _, _ => (false, .pow a x)
  | e => (false, e)

/-! ### Size -/

def isUnder (f : Expr) : Bool :=
  match f with
  | .pow _ x => isTermNeg x
  | _ => false

/-- The sign of the `c` of a constant `c i`. -/
def imaginarySign? (a : Expr) : Option Int :=
  if isImaginary a then a.value?.map fun z => z.im.mant.sign else none

def imaginarySize (a : Expr) : Expr :=
  let turned := product [.const .i, a]
  if imaginarySign? a = some 1 then negate turned else turned

def knownSize? (f : Expr) : Option Expr :=
  let n := nature f
  match f with
  | .num s => some (.num s.size)
  | .fn .abs _ => none
  | .pow (.const .e) x => some (if (nature x).isReal then f else .fn .abs f)
  | f =>
    if n.notNeg && n.isReal then some f
    else if n.notPos && n.isReal then some (negate f)
    else if isImaginary f then some (imaginarySize f)
    else if isConstant f then some (.fn .abs f)
    else match f with
    | .pow b x =>
      let m := nature b
      if b = minusOne && (nature x).isWhole then some one
      else if m.notNeg && (nature x).isReal then some f
      else if m.notNeg || m.isNeg then some (.fn .abs f)
      else if m.isReal && (nature x).isWhole then
        some (if (nature x).isEven then f else power (.fn .abs b) x)
      else none
    | _ => none

def sizeOfSingle (a : Expr) : Expr :=
  match a with
  | .num .undefined => undefined
  | .num .pole => infinity false
  | .fn .abs _ => a
  | a => (knownSize? a).getD (.fn .abs a)

/-- The size of a member of a product: what is known of it, and what is left under the bars. -/
def memberSize (f : Expr) : List Expr × List Expr :=
  match f with
  | .pow b x =>
    match x.int? with
    | some n =>
      if n < 0 then
        match knownSize? b with
        | some e => ([power e x], [])
        | none => ([], [f])
      else (match knownSize? f with
        | some e => ([e], [])
        | none => ([], [f]))
    | none =>
      match knownSize? f with
      | some e => ([e], [])
      | none => ([], [f])
  | f =>
    match knownSize? f with
    | some e => ([e], [])
    | none => ([], [f])

def sizeOfMembers (fs : List Expr) : Expr :=
  let parts := fs.map memberSize
  let unknown := parts.flatMap (·.2)
  product (parts.flatMap (·.1) ++ (if unknown.isEmpty then [] else [.fn .abs (product unknown)]))

def sizeOf (a : Expr) : Expr :=
  match factors a with
  | [f] => sizeOfSingle f
  | fs => sizeOfMembers fs

/-- Is there a bar with symbols below it alone? -/
def isConstantOver (fs : List Expr) : Bool :=
  fs.any isUnder && fs.all fun f => isUnder f || isConstant f

def abs (a : Expr) : Expr :=
  match a with
  | .failed _ | .interval => a
  | .num (.infinite _) | .num .pole => infinity false
  | .num s => .num s.size
  | a =>
    match sign? a with
    | some s => if s < 0 then negate a else a
    | none =>
      let (flips, e) := settleSigns a
      let fs := factors e
      if isConstantOver fs then
        let below := product ((fs.filter isUnder).map fun f => power f minusOne)
        let top := product (fs.filter fun f => !isUnder f)
        quotient (sizeOf top) (sizeOf below)
      else if flips && fs.length = 1 then sizeOfMembers fs
      else sizeOf e

/-! ### Sign -/

/-- What a member of a product adds to its sign, if that is known. -/
def memberSign? (f : Expr) : Option Expr :=
  let n := nature f
  if n.isPos then some one
  else if n.isNeg then some minusOne
  else (imaginarySign? f).map fun s => timesScalar (.ofInt s) (.const .i)

def sign (a : Expr) : Expr :=
  match a with
  | .failed _ | .interval => a
  | .num .pole | .num .undefined => undefined
  | a =>
    match sign? a, imaginarySign? a with
    | some s, _ => ofInt s
    | none, some s => timesScalar (.ofInt s) (.const .i)
    | none, none =>
      let n := nature a
      if n.isPos then one
      else if n.isNeg then minusOne
      else match factors a with
      | [.fn .sign _] => a
      | [_] => .fn .sign a
      | fs =>
        let rest := fs.filter fun f => (memberSign? f).isNone
        let known := product (fs.filterMap memberSign?)
        if rest.length = fs.length then .fn .sign a
        else product [known, match rest with
          | [f@(.fn .sign _)] => f
          | [] => one
          | rest => .fn .sign (mulChain rest)]

end Formulary.Expr
