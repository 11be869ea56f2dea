import Formulary.Calc.Sum

/-! # Of an expression and its negative, which stands for both

Odd and even functions are written with one of two opposite arguments. A product
is judged by its coefficient, a sum by its number of terms below zero; where half
of them are, the two sums are compared by rank, terms of high powers first.
-/

namespace Formulary.Expr

def characters (t : Text) : List Rat := t.map (fun c => (c.toNat : Rat)) ++ [-1]

def scalarRank : Scalar → Rat
  | .exact q => q
  | .rounded p x => if (Scalar.rounded p x).isFar then 0 else x.toRat
  | _ => 0

def Fn.class : Fn → Rat
  | .log => 11
  | .sin => 20 | .cos => 21 | .tan => 22 | .cot => 23
  | .sinh => 30 | .cosh => 31 | .tanh => 32 | .coth => 33
  | _ => 10000

def expClass : Rat := 10

/-- The rank of a kind: numbers, atoms, products, sums, powers, functions, extremes. -/
def kindRank : Expr → List Rat
  | .num .pole => [2, 0]
  | .num _ => [1, 0]
  | .const .e => [2, 1]
  | .const .i => [2, 2]
  | .const .pi => [2, 3]
  | .sym _ => [2, 4]
  | .mul .. => [3, 0]
  | .add .. => [3, 1]
  | .pow (.const .e) _ => [4, expClass, expPlace]
  | .pow .. => [3, 2]
  | .fn f _ => [4, Fn.class f, Fn.place f]
  | .fn2 .max .. => [5, Fn2.place .max]
  | .fn2 .min .. => [5, Fn2.place .min]
  | .fn2 f .. => [4, 10000, Fn2.place f]
  | .unknown name _ => [4, 0] ++ characters name
  | .pair .. => [6]
  | .interval => [7]
  | .failed _ => [8]

def rankLt : List Rat → List Rat → Bool
  | [], t => !t.isEmpty
  | _ :: _, [] => false
  | a :: s, b :: t => a < b || a == b && rankLt s t

def sortByRank (rank : Expr → List Rat) (es : List Expr) : List Expr :=
  ((es.map fun e => (rank e, e)).mergeSort fun a b => !rankLt b.1 a.1).map (·.2)

/-- A power without a coefficient as a generator with a whole exponent. -/
def generator : Expr → Expr × Int
  | .pow b (.num (.exact q)) => (if q.den = 1 then b else .pow b (ofRat (1 / q.den)), q.num)
  | .pow b x =>
    match splitTerm x with
    | (.exact q, some t) => (.pow b (withCoefficient (.exact (1 / q.den)) t), q.num)
    | _ => (.pow b x, 1)
  | e => (e, 1)

/-- The generators of a term, constants left aside. -/
def generators (e : Expr) : List (Expr × Int) :=
  ((factors e).filter fun f => !isConstant f).map generator

def constantPart (e : Expr) : Option Complex :=
  value? (mulChain ((factors e).filter isConstant))

def isPlainNumber : Expr → Bool
  | .num _ | .const .pi | .const .e => true
  | _ => false

/-- A number above zero beside a term below zero, which is a number times one thing. -/
def isPlainDifference : List Expr → Bool
  | [a, .mul (.num s) b] =>
    isPlainNumber a && (sign? a).any (0 < ·) && s.isNeg && (factors b).length == 1
  | _ => false

def numbersFirst (es : List Expr) : List Expr :=
  es.filter isPlainNumber ++ es.filter fun e => !isPlainNumber e

def exponentOf (g : Expr) (gs : List (Expr × Int)) : Int :=
  gs.foldl (fun n p => if p.1 = g then n + p.2 else n) 0

/-- Terms in the order of their exponents, high ones first, then by their constant parts. -/
def termsInOrder (rank : Expr → List Rat) (es : List Expr) : List Expr :=
  let swapped := numbersFirst es
  if isPlainDifference swapped then swapped
  else
    let all := sortByRank rank (((es.flatMap generators).map (·.1)).eraseDups)
    let key (e : Expr) : List Rat :=
      let gs := generators e
      let parts := match constantPart e with
        | some z => [if z.im.isZero then 0 else 1, z.im.toRat, z.re.toRat]
        | none => []
      all.map (fun g => (-(exponentOf g gs) : Rat)) ++ parts
    ((es.map fun e => (key e, e)).mergeSort fun a b => !rankLt b.1 a.1).map (·.2)

/-- The rank of an expression by kind, members, exponent and coefficient; the first argument
bounds the depth. -/
def rank : Nat → Expr → List Rat
  | 0, _ => []
  | n + 1, e =>
    match splitTerm e with
    | (s, none) => [1, 0, 0, scalarRank s]
    | (s, some r) =>
      let (b, x) := match r with
        | .pow (.const .e) _ => (r, one)
        | .pow b x => (b, x)
        | r => (r, one)
      let members := match b with
        | .add .. => (termsInOrder (rank n) (terms b)).map (rank n)
        | .mul .. => (sortByRank (rank n) (factors b)).map (rank n)
        | .pow (.const .e) y => [rank n y]
        | .pow c y => [rank n c, rank n y]
        | .fn _ a | .unknown _ a => [rank n a]
        | .fn2 _ a c | .pair a c => [rank n a, rank n c]
        | .sym id => [characters id]
        | .num t => [[scalarRank t]]
        | _ => [[]]
      kindRank b ++ [(members.length : Rat)] ++ members.flatten ++ rank n x ++ [scalarRank s]

def rankOf (e : Expr) : List Rat := rank (size e + 1) e

def isTermNeg (e : Expr) : Bool := (splitTerm e).1.isNeg

/-- Does the expression give way to its negative? -/
def leadsMinus (e : Expr) : Bool :=
  match e with
  | .add .. =>
    let ts := terms e
    let below := (ts.filter isTermNeg).length
    if 2 * below < ts.length then false
    else if ts.length < 2 * below then true
    else rankLt (rankOf e) (rankOf (negate e))
  | e => isTermNeg e

end Formulary.Expr
