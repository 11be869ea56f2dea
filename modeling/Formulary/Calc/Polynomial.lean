/-! # Polynomials

Polynomials with whole coefficients in several variables, as terms in falling
lexicographic order without zeros. Greatest common divisors are found variable by
variable, by remainders that are kept primitive.
-/

namespace Formulary

/-- An exponent for each variable and a coefficient. -/
abbrev PolyTerm := List Nat × Int

abbrev Poly := List PolyTerm

namespace Poly

def expLt : List Nat → List Nat → Bool
  | a :: s, b :: t => a < b || a == b && expLt s t
  | _, _ => false

def addTerm (t : PolyTerm) : Poly → Poly
  | [] => if t.2 = 0 then [] else [t]
  | u :: us =>
    if t.1 = u.1 then if t.2 + u.2 = 0 then us else (u.1, t.2 + u.2) :: us
    else if expLt u.1 t.1 then if t.2 = 0 then u :: us else t :: u :: us
    else u :: addTerm t us

def ofTerms (ts : List PolyTerm) : Poly := ts.foldr addTerm []

def add (f g : Poly) : Poly := f.foldr addTerm g

def neg (f : Poly) : Poly := f.map fun t => (t.1, -t.2)

def sub (f g : Poly) : Poly := add f (neg g)

def mulTerm (t : PolyTerm) (f : Poly) : Poly :=
  f.map fun u => (List.zipWith (· + ·) t.1 u.1, t.2 * u.2)

def mul (f g : Poly) : Poly := f.foldr (fun t acc => add (mulTerm t g) acc) []

def degree (i : Nat) (f : Poly) : Nat := f.foldl (fun d t => max d (t.1.getD i 0)) 0

/-- The polynomial that stands before the power `d` of a variable. -/
def coefficient (i d : Nat) (f : Poly) : Poly :=
  (f.filter fun t => t.1.getD i 0 = d).map fun t => (t.1.set i 0, t.2)

def leading (i : Nat) (f : Poly) : Poly := coefficient i (degree i f) f

def coefficients (i : Nat) (f : Poly) : List Poly :=
  (List.range (degree i f + 1)).map fun d => coefficient i d f

def raise (i d : Nat) (f : Poly) : Poly := f.map fun t => (t.1.set i (t.1.getD i 0 + d), t.2)

/-- The quotient by a polynomial that divides, one term at a time; the first argument bounds the
number of its terms. -/
def quotient (g : Poly) : Nat → Poly → Poly
  | 0, _ => []
  | fuel + 1, f =>
    match f, g with
    | a :: _, b :: _ =>
      let t : PolyTerm := (List.zipWith (· - ·) a.1 b.1, a.2 / b.2)
      t :: quotient g fuel (sub f (mulTerm t g))
    | _, _ => []

/-- More than the terms that a divisor can have. -/
def termBound (f : Poly) : Nat :=
  match f with
  | [] => 1
  | t :: _ => ((List.range t.1.length).map fun i => degree i f + 1).foldl (· * ·) 1

def divide (f g : Poly) : Poly := quotient g (termBound f) f

def remainder (i : Nat) (g : Poly) : Nat → Poly → Poly
  | 0, f => f
  | fuel + 1, f =>
    if f.isEmpty || degree i f < degree i g then f
    else
      remainder i g fuel
        (sub (mul (leading i g) f) (raise i (degree i f - degree i g) (mul (leading i f) g)))

/-- The divisor common to the coefficients of a polynomial in a variable. -/
def content (gcd : Poly → Poly → Poly) (i : Nat) (f : Poly) : Poly :=
  (coefficients i f).foldl gcd []

/-- Remainders of primitive polynomials in turn, up to the last that is not zero. -/
def lastRemainder (gcd : Poly → Poly → Poly) (i : Nat) : Nat → Poly → Poly → Poly
  | 0, f, _ => f
  | fuel + 1, f, g =>
    if g.isEmpty then f
    else
      let r := remainder i g (degree i f + 1) f
      lastRemainder gcd i fuel g (if r.isEmpty then [] else divide r (content gcd i r))

def gcdConstant (f g : Poly) : Poly :=
  match f, g with
  | [], g => g
  | f, [] => f
  | a :: _, b :: _ => [(a.1, (Int.gcd a.2 b.2 : Int))]

def gcdIn : List Nat → Poly → Poly → Poly
  | [], f, g => gcdConstant f g
  | i :: is, f, g =>
    if f.isEmpty then g
    else if g.isEmpty then f
    else
      let common := gcdIn is (content (gcdIn is) i f) (content (gcdIn is) i g)
      let f := divide f (content (gcdIn is) i f)
      let g := divide g (content (gcdIn is) i g)
      let (f, g) := if degree i f < degree i g then (g, f) else (f, g)
      mul common (lastRemainder (gcdIn is) i (degree i g + 2) f g)

/-- The greatest common divisor of two polynomials in `n` variables, its first coefficient above
zero. -/
def gcd (n : Nat) (f g : Poly) : Poly :=
  let d := gcdIn (List.range n) f g
  match d with
  | t :: _ => if t.2 < 0 then neg d else d
  | [] => []

end Poly

end Formulary
