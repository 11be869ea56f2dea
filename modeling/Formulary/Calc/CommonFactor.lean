import Formulary.Calc.Polynomial
import Formulary.Calc.Power

/-! # Common factors

Two expressions seen as polynomials in whatever stands in them that is no number:
their greatest common divisor, and an expression divided by it, with what the
terms of its sums share brought out.
-/

namespace Formulary.Expr

/-! ### Expressions as polynomials -/

/-- Powers of generators. -/
abbrev Monomial := List (Expr × Nat)

abbrev Expansion := List (Monomial × Rat)

def timesGenerator (m : Monomial) (p : Expr × Nat) : Monomial :=
  match m with
  | [] => [p]
  | q :: rest => if q.1 = p.1 then (q.1, q.2 + p.2) :: rest else q :: timesGenerator rest p

def timesMonomial (m k : Monomial) : Monomial := k.foldl timesGenerator m

def multiply (f g : Expansion) : Expansion :=
  f.flatMap fun t => g.map fun u => (timesMonomial t.1 u.1, t.2 * u.2)

def expansionLimit : Nat := 12

def raiseExpansion (f : Expansion) : Nat → Expansion
  | 0 => [([], 1)]
  | n + 1 => multiply f (raiseExpansion f n)

def ofGenerator (g : Expr × Int) : Expansion :=
  if g.2 < 0 then [([(.pow g.1 minusOne, g.2.natAbs)], 1)] else [([(g.1, g.2.natAbs)], 1)]

/-- The terms of an expression multiplied out; there are none with the imaginary unit. -/
def expand? : Expr → Option Expansion
  | .num (.exact q) => some [([], q)]
  | .num (.rounded p x) =>
    if (Scalar.rounded p x).isFar then none else some [([], x.toRat)]
  | .num _ | .const .i => none
  | .add a b => do return (← expand? a) ++ (← expand? b)
  | .mul a b => do return multiply (← expand? a) (← expand? b)
  | .pow b x =>
    match x.int? with
    | some n =>
      if isSum b && 0 < n && n ≤ expansionLimit then
        (expand? b).map fun f => raiseExpansion f n.natAbs
      else some (ofGenerator (generator (.pow b x)))
    | none => some (ofGenerator (generator (.pow b x)))
  | e => some [([(e, 1)], 1)]

def holdsRounded : Expr → Bool
  | .num (.rounded ..) => true
  | .add a b | .mul a b => holdsRounded a || holdsRounded b
  | .pow a _ => holdsRounded a
  | _ => false

def exponents (gs : List Expr) (m : Monomial) : List Nat :=
  gs.map fun g => (m.find? fun p => p.1 == g).elim 0 (·.2)

def scaleBy (n : Nat) (q : Rat) : Int := (q * n).num

/-- The polynomial with denominators cleared. -/
def toPoly (gs : List Expr) (f : Expansion) : Poly :=
  let n := (f.map (·.2.den)).foldl Nat.lcm 1
  Poly.ofTerms (f.map fun t => (exponents gs t.1, scaleBy n t.2))

def ofPolyTerm (gs : List Expr) (c : Scalar) (exps : List Nat) : Expr :=
  product (.num c :: (gs.zip exps).map fun p => power p.1 (ofInt p.2))

/-- The polynomial as an expression; over fractions and rounded numbers it begins with one. -/
def ofPoly (gs : List Expr) (areWhole areRounded : Bool) (f : Poly) : Expr :=
  let lead : Int := (f.head?.map (·.2)).getD 1
  sum (f.map fun t =>
    let q : Rat := if areWhole then t.2 else mkRat (t.2 * lead.sign) lead.natAbs
    let c := Scalar.exact q
    ofPolyTerm gs (if areRounded then .round Scalar.doubleBits (c.toBinary Scalar.doubleBits)
      else c) t.1)

def commonFactor (a b : Expr) : Expr :=
  match expand? a, expand? b with
  | some f, some g =>
    let gs := sortByRank rankOf (((f ++ g).flatMap fun t => t.1.map (·.1)).eraseDups)
    let areWhole := (f ++ g).all fun t => t.2.den = 1
    let areRounded := holdsRounded a || holdsRounded b
    if gs.isEmpty then one
    else ofPoly gs (areWhole && !areRounded) areRounded
      (Poly.gcd gs.length (toPoly gs f) (toPoly gs g))
  | _, _ => one

/-! ### What the terms of a sum share -/

/-- The factors of a term with whole exponents, the number aside. -/
def termPowers (t : Expr) : List (Expr × Int) :=
  match splitTerm t with
  | (_, none) => []
  | (_, some r) => (factors r).map fun f =>
    match f with
    | .pow b (.num (.exact q)) => if q.den = 1 then (b, q.num) else (f, 1)
    | f => (f, 1)

def powerIn (b : Expr) (ps : List (Expr × Int)) : Int := (ps.lookup b).getD 0

/-- The power of a base that all terms share, above or below the bar. -/
def sharedPower (b : Expr) (ts : List (List (Expr × Int))) : Int :=
  let ns := ts.map (powerIn b)
  match ns with
  | [] => 0
  | n :: rest =>
    if ns.all (0 < ·) then rest.foldl min n else if ns.all (· < 0) then rest.foldl max n else 0

def sharedPowers (ts : List Expr) : List Expr :=
  match ts.map termPowers with
  | [] => []
  | p :: ps => p.filterMap fun b =>
    let n := sharedPower b.1 (p :: ps)
    if n = 0 then none else some (power b.1 (ofInt n))

def sharedFraction (ts : List Expr) : Rat :=
  match ts.mapM fun t => match (splitTerm t).1 with | .exact q => some q | _ => none with
  | none => 1
  | some qs =>
    let top := (qs.map (·.num.natAbs)).foldl Nat.gcd 0
    let bottom := (qs.map (·.den)).foldl Nat.lcm 1
    if top = 0 then 1
    else
      let keepsBar := qs.any fun q => (q / top).den = 1
      mkRat top (if keepsBar then 1 else bottom)

def pullTerms (e : Expr) : Rat × List Expr :=
  if !isSum e then (1, [e])
  else
    let ts := terms e
    let powers := sharedPowers ts
    let q := sharedFraction ts
    let below := powers.map fun p => power p minusOne
    (q, powers ++ [sum (ts.map fun t => product (ofRat (1 / q) :: t :: below))])

/-- A number that stays in front, even of a sum. -/
def keepCoefficient (q : Rat) (e : Expr) : Expr :=
  match e with
  | .add .. => if q = 1 then e else .mul (.num (.exact q)) e
  | e => timesScalar (.exact q) e

/-- The quotient by a common factor, with what the terms of sums share brought out. -/
def divideOut (e g : Expr) : Expr :=
  let pulled := (factors (product [e, power g minusOne])).map pullTerms
  let q := pulled.foldl (fun q p => q * p.1) 1
  keepCoefficient q (product (pulled.flatMap (·.2)))

end Formulary.Expr
