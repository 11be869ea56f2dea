import Formulary.Calc.Scalar
import Formulary.Eval.Arithmetic
import Formulary.Eval.Builtin

/-! # Expressions

Trees of scalars, constants, symbols and operations. Sums and products are chains
to the right, with the scalar part first and the other members in the order of
their keys; the modules after this one build them so.
-/

namespace Formulary

inductive Const where
  | pi | e | i
  deriving DecidableEq, Repr

inductive Fn2 where
  | atan2 | mod | min | max
  deriving DecidableEq, Repr

/-- Why an operation has no result at all. -/
inductive Fault where
  | divisionByZero
  | badOperand
  | factorialPole
  | noDoubleFactorial
  | notComparable
  | badShift
  | noNumber
  | noName
  | tooLarge
  deriving DecidableEq, Repr

/-- The failure that a fault shows itself as. -/
def Fault.failure : Fault → Failure
  | divisionByZero => ⟨.division, []⟩
  | badOperand => ⟨.operand, []⟩
  | factorialPole => ⟨.value, text "gamma function pole"⟩
  | noDoubleFactorial =>
    ⟨.value, text "argument must be nonnegative integer or negative odd number"⟩
  | notComparable => ⟨.value, text "The argument is not comparable."⟩
  | badShift => ⟨.value, text "negative shift count"⟩
  | noNumber => ⟨.attribute, []⟩
  | noName => ⟨.other (text "NameError"), []⟩
  | tooLarge => ⟨.overflow, []⟩

/-- `interval` is a value known only to lie between bounds; `unknown` applies a function of which
only the name is known, its arguments chained by `pair`. -/
inductive Expr where
  | num (s : Scalar)
  | const (c : Const)
  | sym (id : Text)
  | add (a b : Expr)
  | mul (a b : Expr)
  | pow (a b : Expr)
  | fn (f : Fn) (a : Expr)
  | fn2 (f : Fn2) (a b : Expr)
  | pair (a b : Expr)
  | unknown (name : Text) (args : Expr)
  | interval
  | failed (f : Fault)
  deriving DecidableEq, Repr

namespace Expr

def zero : Expr := .num .zero
def one : Expr := .num .one
def minusOne : Expr := .num .minusOne
def half : Expr := .num .half
def pi : Expr := .const .pi
def ofInt (n : Int) : Expr := .num (.ofInt n)
def ofRat (q : Rat) : Expr := .num (.exact q)
def pole : Expr := .num .pole
def undefined : Expr := .num .undefined

def int? : Expr → Option Int
  | .num s => s.int?
  | _ => none

def rat? : Expr → Option Rat
  | .num (.exact q) => some q
  | _ => none

def scalar? : Expr → Option Scalar
  | .num s => some s
  | _ => none

def isNumber : Expr → Bool
  | .num _ => true
  | _ => false

def fault? : Expr → Option Fault
  | .failed f => some f
  | _ => none

def terms : Expr → List Expr
  | .add a b => terms a ++ terms b
  | e => [e]

def factors : Expr → List Expr
  | .mul a b => factors a ++ factors b
  | e => [e]

def chain (join : Expr → Expr → Expr) (empty : Expr) : List Expr → Expr
  | [] => empty
  | [e] => e
  | e :: es => join e (chain join empty es)

def addChain (es : List Expr) : Expr := chain .add zero es

def mulChain (es : List Expr) : Expr := chain .mul one es

/-- The symbols of an expression, with repetitions. -/
def symbols : Expr → List Text
  | .sym id => [id]
  | .add a b | .mul a b | .pow a b | .fn2 _ a b | .pair a b => symbols a ++ symbols b
  | .fn _ a | .unknown _ a => symbols a
  | _ => []

def size : Expr → Nat
  | .add a b | .mul a b | .pow a b | .fn2 _ a b | .pair a b => size a + size b + 1
  | .fn _ a | .unknown _ a => size a + 1
  | _ => 1

def mentions (c : Const) : Expr → Bool
  | .const d => c == d
  | .add a b | .mul a b | .pow a b | .fn2 _ a b | .pair a b => mentions c a || mentions c b
  | .fn _ a | .unknown _ a => mentions c a
  | _ => false

def isConstant : Expr → Bool
  | .num _ | .const _ => true
  | .add a b | .mul a b | .pow a b | .fn2 _ a b => isConstant a && isConstant b
  | .fn _ a => isConstant a
  | .sym _ | .pair .. | .unknown .. | .interval | .failed _ => false

def hasSingular : Expr → Bool
  | .num s => !s.isFinite
  | .add a b | .mul a b | .pow a b | .fn2 _ a b | .pair a b => hasSingular a || hasSingular b
  | .fn _ a | .unknown _ a => hasSingular a
  | _ => false

/-! ### Order -/

/-- Places in the order of members: numbers, constants, symbols, powers, products, sums, and
functions by name. -/
def Fn.place : Fn → Int
  | .abs => 14
  | .acos => 23 | .acosh => 24 | .asin => 25 | .asinh => 26 | .atan => 27 | .atanh => 29
  | .ceil => 30 | .cos => 31 | .cosh => 32 | .cot => 33 | .coth => 34 | .csc => 35
  | .factorial => 37 | .doubleFactorial => 38 | .floor => 39 | .log => 40 | .sec => 41
  | .sign => 42 | .sin => 43 | .sinh => 44 | .tan => 45 | .tanh => 46

def Fn2.place : Fn2 → Int
  | .max => 20 | .min => 21 | .mod => 22 | .atan2 => 28

def expPlace : Int := 36

def scalarKey : Scalar → List Int
  | .exact q =>
    if q = 0 then [0] else if q = 1 then [1] else if q = 1 / 2 then [2]
    else if q = -1 then [5] else if q.den = 1 then [7, q.num, 1] else [8, q.num, q.den]
  | .infinite false => [3]
  | .undefined => [4]
  | .infinite true => [6]
  | .rounded p x => [9, if x.isNeg then 1 else 0, x.mant.natAbs, x.exp, p]
  | .pole => [47]

/-- A sequence of numbers by which expressions are ordered; of two chains of a kind the shorter
comes first. -/
def key : Expr → List Int
  | .num s => scalarKey s
  | .const .e => [10]
  | .const .pi => [11]
  | .const .i => [12]
  | .sym id => 13 :: (id.map fun c => (c.toNat : Int)) ++ [-1]
  | .pow (.const .e) b => expPlace :: key b
  | .pow a b => 15 :: (key a ++ key b)
  | .mul a b => 16 :: ((factors a).length + (factors b).length : Nat) :: (key a ++ key b)
  | .add a b => 17 :: ((terms a).length + (terms b).length : Nat) :: (key a ++ key b)
  | .fn f a => Fn.place f :: key a
  | .fn2 f a b => Fn2.place f :: (key a ++ key b)
  | .pair a b => 48 :: (key a ++ key b)
  | .unknown name a => 49 :: (name.map fun c => (c.toNat : Int)) ++ [-1] ++ key a
  | .interval => [50]
  | .failed _ => [51]

def keyLe : List Int → List Int → Bool
  | [], _ => true
  | _ :: _, [] => false
  | a :: s, b :: t => decide (a < b) || (a == b && keyLe s t)

def inOrder (es : List Expr) : List Expr :=
  ((es.map fun e => (key e, e)).mergeSort fun a b => keyLe a.1 b.1).map (·.2)

def firstFault? (es : List Expr) : Option Fault := es.findSome? fault?

end Expr

end Formulary
