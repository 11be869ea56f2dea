import Formulary.Calc.Estimate
import Formulary.Calc.Value

/-! # Curves

The points of an expression over a symbol. They are worked out in machine arithmetic, so
that poles are infinite and points outside a domain undefined. Some expressions are
beyond machine arithmetic.
-/

namespace Formulary

namespace Sampling

def grid (lo hi : Float) (points : Nat) : List Float :=
  let last := points - 1
  let step := (hi - lo) / last.toFloat
  (List.range points).map fun i =>
    if i = last then hi
    else if step == 0.0 then i.toFloat / last.toFloat * (hi - lo) + lo
    else i.toFloat * step + lo

def machine (x : Double) : Float := x.toFloat

def toDouble (x : Binary) : Double := Double.ofBinary (x.round Scalar.doubleBits)

/-- A rounded number as its decimal digits give it back. -/
def written (bits : Nat) (x : Binary) : Double :=
  match Double.ofBinary x with
  | .finite s m e =>
    let d := Decimal.significant (Scalar.digitsFor bits) m e
    .ofDecimal s (Text.digitsValue d.digits) (d.power - (d.digits.length - 1 : Nat))
  | x => x

def ofScalar : Scalar → Float
  | .exact q => machine (.ofRatio (q < 0) q.num.natAbs q.den)
  | .rounded p x => machine (written p x)
  | .infinite s => machine (.infinite s)
  | .pole | .undefined => machine .nan

def ofConst : Const → Float
  | .pi => machine (toDouble (Elementary.pi 64))
  | .e => machine (toDouble (Elementary.exp 64 Binary.one))
  | .i => machine .nan

/-- The remainder with the sign of the divisor. -/
def remainder (a b : Float) : Float :=
  match Double.ofFloat a, Double.ofFloat b with
  | .finite s m e, .finite t n f =>
    if n = 0 then machine .nan
    else
      let r := Scalar.mod?.modBinary (Binary.withSign s m e) (Binary.withSign t n f)
      if r.isZero then machine (.finite t 0 0) else machine (.ofBinary r)
  | .finite s m _, .infinite t =>
    if m = 0 then machine (.finite t 0 0) else if s = t then a else b
  | _, _ => machine .nan

def signOf (x : Float) :
    Float := if x > 0.0 then 1.0 else if x < 0.0 then -1.0 else if x == 0.0 then 0.0 else x

def larger (a b : Float) :
    Float := if a.isNaN then a else if b.isNaN then b else if a < b then b else a

def smaller (a b : Float) :
    Float := if a.isNaN then a else if b.isNaN then b else if b < a then b else a

def ofFn (f : Fn) (x : Float) : Float :=
  match f with
  | .sin => x.sin
  | .cos => x.cos
  | .tan => x.tan
  | .sec => 1.0 / x.cos
  | .csc => 1.0 / x.sin
  | .cot => 1.0 / x.tan
  | .asin => x.asin
  | .acos => x.acos
  | .atan => x.atan
  | .sinh => x.sinh
  | .cosh => x.cosh
  | .tanh => x.tanh
  | .coth => 1.0 / x.tanh
  | .asinh => x.asinh
  | .acosh => x.acosh
  | .atanh => x.atanh
  | .abs => x.abs
  | .sign => signOf x
  | .floor => x.floor
  | .ceil => x.ceil
  | .log => x.log
  | .factorial | .doubleFactorial => machine .nan

def ofFn2 (f : Fn2) (a b : Float) : Float :=
  match f with
  | .atan2 => Float.atan2 a b
  | .mod => remainder a b
  | .min => smaller a b
  | .max => larger a b

/-- A power of machine numbers. Where the exponent is a number, squares, roots and inverses are
computed as such. -/
def powerOf (b : Float) (e : Expr) (exponent : Float) : Float :=
  if !e.isNumber then Float.pow b exponent
  else if exponent == 2.0 then b * b
  else if exponent == 0.5 then b.sqrt
  else if exponent == -1.0 then 1.0 / b
  else if e.rat? = some (-1 / 2) then 1.0 / b.sqrt
  else Float.pow b exponent

/-- Powers with a fraction below zero as exponent stand under the bar. -/
def isUnder : Expr → Bool
  | .pow _ (.num (.exact r)) => r < 0
  | _ => false

def parts (x : Float) : Expr → Float × Float × Float
  | .num s => let v := ofScalar s; (v, v, 1.0)
  | .const c => let v := ofConst c; (v, v, 1.0)
  | .sym _ => (x, x, 1.0)
  | .add a b => let v := (parts x a).1 + (parts x b).1; (v, v, 1.0)
  | .mul a b =>
    let (_, n, d) := parts x a
    let (_, m, e) := parts x b
    (n * m / (d * e), n * m, d * e)
  | .pow b e =>
    match b with
    | .const .e => let v := (parts x e).1.exp; (v, v, 1.0)
    | b =>
      let base := (parts x b).1
      let v := powerOf base e (parts x e).1
      if isUnder (.pow b e) then
        match e.rat? with
        | some r => (v, 1.0, powerOf base (.ofRat (-r)) (ofScalar (.exact (-r))))
        | none => (v, v, 1.0)
      else (v, v, 1.0)
  | .fn f a => let v := ofFn f (parts x a).1; (v, v, 1.0)
  | .fn2 f a b => let v := ofFn2 f (parts x a).1 (parts x b).1; (v, v, 1.0)
  | .pair .. | .unknown .. | .interval | .failed _ => (machine .nan, machine .nan, 1.0)

def valueAt (x : Float) (e : Expr) : Float := (parts x e).1

def leftChain (join : Expr → Expr → Expr) (empty : Expr) : List Expr → Expr
  | [] => empty
  | e :: es => es.foldl join e

/-- The members of a chain of the kind of `place`, or the expression alone, sums and products in the
order in which they are worked out: terms by falling powers, factors by rank, both from the left. -/
def arrangedMembers (place : Expr.Place) : Expr → List Expr
  | .add a b =>
    let members := arrangedMembers .sum a ++ arrangedMembers .sum b
    if place = .sum then members
    else [leftChain .add Expr.zero (Expr.termsInOrder Expr.rankOf members)]
  | .mul a b =>
    let members := arrangedMembers .product a ++ arrangedMembers .product b
    if place = .product then members
    else [leftChain .mul Expr.one (Expr.sortByRank Expr.rankOf members)]
  | .pow a b =>
    [.pow (Expr.single (arrangedMembers .alone a)) (Expr.single (arrangedMembers .alone b))]
  | .fn f a => [.fn f (Expr.single (arrangedMembers .alone a))]
  | .fn2 f a b =>
    [.fn2 f (Expr.single (arrangedMembers .alone a)) (Expr.single (arrangedMembers .alone b))]
  | e => [e]

def arranged (e : Expr) : Expr := Expr.single (arrangedMembers .alone e)

def wholeLimit : Nat := 1 <<< 64

def isWide (q : Rat) : Bool := wholeLimit ≤ q.num.natAbs || wholeLimit ≤ q.den

/-- Roots of negative numbers, factorials, wide numbers, and extremes with a constant among their
members are beyond machine arithmetic. -/
def needsPoints : Expr → Bool
  | .num (.exact q) => isWide q
  | .const .i => true
  | .num _ | .const _ | .sym _ | .interval | .failed _ => false
  | .add a b | .mul a b | .pair a b => needsPoints a || needsPoints b
  | .pow a b =>
    needsPoints a || needsPoints b ||
      match a, b with
      | .num s, .num (.exact r) => s.isNeg && r.den != 1
      | _, _ => false
  | .fn .factorial _ | .fn .doubleFactorial _ => true
  | .fn _ a | .unknown _ a => needsPoints a
  | .fn2 f a b =>
    needsPoints a || needsPoints b ||
      ((f == .max || f == .min) && (a.isConstant || b.isConstant))

/-- Names a function without meaning, or a range in place of a number. -/
def isNameless : Expr → Bool
  | .unknown .. | .interval => true
  | .add a b | .mul a b | .pow a b | .fn2 _ a b | .pair a b => isNameless a || isNameless b
  | .fn _ a => isNameless a
  | _ => false

def comparison (c : Comparison) (a b : Float) : Float :=
  let holds := match c with
    | .less => decide (a < b)
    | .lessEq => decide (a ≤ b)
    | .greater => decide (b < a)
    | .greaterEq => decide (b ≤ a)
    | .equal => a == b
    | .notEqual => a != b
  if holds then 1.0 else 0.0

/-- The curve of a value over its open symbol, where it has one. -/
def curve (v : Value) : Except Fault Value :=
  match v with
  | .expr _ | .relation .. | .truth _ => .ok v
  | .formal f _ => .error f
  | _ => .error .noNumber

/-- The heights of a curve, all of them in machine arithmetic. -/
def heights (v : Value) (xs : List Float) : Except Fault (List Float) :=
  match v with
  | .expr e =>
    if isNameless e then .error .noName
    else if needsPoints e then .error .badOperand
    else .ok (xs.map (valueAt · (arranged e)))
  | .relation c a b =>
    .ok (xs.map fun x => comparison c (valueAt x (arranged a)) (valueAt x (arranged b)))
  | .truth b => .ok (xs.map fun _ => if b then 1.0 else 0.0)
  | _ => .error .noNumber

end Sampling

end Formulary
