import Formulary.Calc.Scalar

/-! # Roots of fractions

A fractional power of a fraction is written as a fraction times roots of primes,
each with an exponent between zero and one, so that equal roots are written
alike. Factors are sought among the small numbers; what is left counts as prime.
-/

namespace Formulary.Radical

def divisorLimit : Nat := 1 <<< 15

def removeDivisor (d : Nat) : Nat → Nat → Nat → Nat × Nat
  | 0, n, k => (k, n)
  | fuel + 1, n, k => if n % d = 0 then removeDivisor d fuel (n / d) (k + 1) else (k, n)

/-- The rest, as a square where it is one. -/
def restFactors (n : Nat) : List (Nat × Nat) :=
  if n = 1 then []
  else
    let r := natSqrt n
    if r * r = n then [(r, 2)] else [(n, 1)]

def factorsFrom : Nat → Nat → Nat → List (Nat × Nat)
  | 0, _, n => restFactors n
  | fuel + 1, d, n =>
    if n = 1 then []
    else if d * d > n then [(n, 1)]
    else if n % d = 0 then
      let (k, rest) := removeDivisor d (bitLength n) n 0
      (d, k) :: factorsFrom fuel (d + 1) rest
    else factorsFrom fuel (d + 1) n

def primeFactors (n : Nat) : List (Nat × Nat) := factorsFrom divisorLimit 2 n

/-- A root `base ^ exponent` with the exponent between zero and one. -/
structure Root where
  base : Int
  exponent : Rat
  deriving DecidableEq, Repr

def ofSign (r : Rat) : Scalar × List Root :=
  let turn := r - 2 * (r / 2).floor
  let (s, f) := if turn < 1 then (Scalar.one, turn) else (Scalar.minusOne, turn - 1)
  (s, if f = 0 then [] else [⟨-1, f⟩])

def ofPrime (p : Nat) (r : Rat) : Scalar × List Root :=
  let whole := r.floor
  let f := r - whole
  ((Scalar.ofInt p).powInt whole, if f = 0 then [] else [⟨p, f⟩])

def join (a b : Scalar × List Root) : Scalar × List Root := (a.1.mul b.1, a.2 ++ b.2)

def ofFactors (factors : List (Nat × Nat)) (r : Rat) : Scalar × List Root :=
  factors.foldl (fun acc f => join acc (ofPrime f.1 (r * f.2))) (.one, [])

/-- `q ^ r` for a fraction other than zero. -/
def ofPower (q r : Rat) : Scalar × List Root :=
  if r.den = 1 then (Scalar.powInt (.exact q) r.num, [])
  else
    let sign := if q < 0 then ofSign r else (.one, [])
    join sign (join (ofFactors (primeFactors q.num.natAbs) r) (ofFactors (primeFactors q.den) (-r)))

end Formulary.Radical
