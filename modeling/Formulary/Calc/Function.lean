import Formulary.Calc.Extreme
import Formulary.Calc.Remainder
import Formulary.Calc.Whole

/-! # Functions of expressions

Applying a function simplifies where the value is known exactly, rounds where the
argument is rounded, and otherwise leaves the function standing. Poles and points
outside a domain give the singular numbers or a failure. Built-in functions are called
by name.
-/

namespace Formulary

namespace Expr

def apply (f : Fn) (a : Expr) : Expr :=
  match f with
  | .log => log a
  | .abs => abs a
  | .sign => sign a
  | .floor => floor a
  | .ceil => ceil a
  | .factorial => factorial a
  | .doubleFactorial => doubleFactorial a
  | .sec | .csc => inverseWave f a
  | .asin | .acos | .atan | .asinh | .acosh | .atanh => ofInverse f a
  | .sin | .cos | .tan | .cot | .sinh | .cosh | .tanh | .coth => wave f a

def apply2 (f : Fn2) (a b : Expr) : Expr :=
  match f with
  | .atan2 => atan2 a b
  | .mod => mod a b
  | .min => extreme .min [a, b]
  | .max => extreme .max [a, b]

/-- How often a number goes into a whole one. The exact quotient counts; where what is left is the
divisor after rounding, it goes once more. -/
def timesInto (n : Int) (s : Scalar) : Expr :=
  let plain := floor (quotient (ofInt n) (.num s))
  match s with
  | .rounded _ x =>
    if s.isFar then plain
    else
      let r : Rat := n / x.toRat
      let times := if 0 ≤ r then r.floor else -(-r).floor - 1
      let left := (Scalar.ofInt n).add (s.mul (.ofInt times)).neg
      ofInt (if left.compare? s = some .eq then times + 1 else times)
  | .infinite negative => ofInt (if n = 0 || decide (n < 0) = negative then 0 else -1)
  | _ => plain

/-- The floor of a quotient. A whole number cannot be divided so by zero. -/
def floorQuotient (a b : Expr) : Expr :=
  match a.int?, b with
  | some n, .num s => if s.isZero then .failed .divisionByZero else timesInto n s
  | _, _ => floor (quotient a b)

end Expr

/-! ### Names -/

def Builtin.call? (b : Builtin) (args : List Expr) : Option Expr :=
  match b, args with
  | .plain f, [a] => some (Expr.apply f a)
  | .exp, [a] => some (Expr.exp a)
  | .sqrt, [a] | .sqrt, [a, _] => some (Expr.sqrt a)
  | .cbrt, [a] | .cbrt, [a, _] => some (Expr.power a (Expr.ofRat (1 / 3)))
  | .round, [a] => some (Expr.nearest a)
  | .log, [a] => some (Expr.log a)
  | .log, [a, b] => some (Expr.logBase a b)
  | .log10, [a] => some (Expr.logBase a (Expr.ofInt 10))
  | .log2, [a] => some (Expr.logBase a (Expr.ofInt 2))
  | .pow, [a, b] | .pow, [a, b, _] => some (Expr.power a b)
  | .mod, [a, b] => some (Expr.mod a b)
  | .atan2, [a, b] => some (Expr.atan2 a b)
  | .min, args => some (Expr.extreme .min args)
  | .max, args => some (Expr.extreme .max args)
  | _, _ => none

def namedConstants : List (String × Expr) :=
  [("pi", .pi), ("E", .const .e), ("I", .const .i), ("oo", .num (.infinite false)),
   ("zoo", .pole), ("nan", .undefined)]

def namedConstant? (name : Text) : Option Expr :=
  if name = text "GoldenRatio" then
    some (Expr.product [Expr.half, Expr.sum [Expr.one, Expr.sqrt (Expr.ofInt 5)]])
  else (namedConstants.find? fun p => text p.1 == name).map (·.2)

end Formulary

/-! ## Substitution

Symbols are replaced all at once, and what they stood in is simplified anew from
the inside out. Parts without such a symbol stay as they are.
-/

namespace Formulary.Expr

/-- Where an expression stands: within a sum, within a product, or by itself. -/
inductive Place where
  | sum | product | alone
  deriving DecidableEq, Repr

def isAffected (σ : Text → Option Expr) (e : Expr) : Bool :=
  (symbols e).any fun id => (σ id).isSome

def joinPair (a b : Expr) : Expr :=
  match firstFault? [a, b] with
  | some f => .failed f
  | none => .pair a b

def applyUnknown (name : Text) (a : Expr) : Expr :=
  match a with
  | .failed f => .failed f
  | a => .unknown name a

def single (es : List Expr) : Expr := es.head?.getD zero

def replaceMembers (σ : Text → Option Expr) (place : Place) (e : Expr) : List Expr :=
  if !isAffected σ e then [e]
  else match e with
  | .sym id => [(σ id).getD (.sym id)]
  | .add a b =>
    let members := replaceMembers σ .sum a ++ replaceMembers σ .sum b
    if place = .sum then members else [sum members]
  | .mul a b =>
    let members := replaceMembers σ .product a ++ replaceMembers σ .product b
    if place = .product then members else [product members]
  | .pow a b =>
    [power (single (replaceMembers σ .alone a)) (single (replaceMembers σ .alone b))]
  | .fn f a => [apply f (single (replaceMembers σ .alone a))]
  | .fn2 f a b =>
    [apply2 f (single (replaceMembers σ .alone a)) (single (replaceMembers σ .alone b))]
  | .pair a b =>
    [joinPair (single (replaceMembers σ .alone a)) (single (replaceMembers σ .alone b))]
  | .unknown name a => [applyUnknown name (single (replaceMembers σ .alone a))]
  | e => [e]

def replace (σ : Text → Option Expr) (e : Expr) : Expr := single (replaceMembers σ .alone e)

/-- A number put in for one symbol. -/
def put (id : Text) (s : Scalar) (e : Expr) : Expr :=
  replace (fun k => if k = id then some (.num s) else none) e

end Formulary.Expr
