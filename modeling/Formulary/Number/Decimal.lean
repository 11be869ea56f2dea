import Formulary.Number.Double
import Formulary.Text.Basic

/-! # Doubles in decimal

Two written forms: the fewest digits that read back as the same double, and a
fixed count of significant digits with trailing zeros dropped. Both come from
exact integer arithmetic on the double's value.
-/

namespace Formulary

/-- Significant digits and the power of ten of the first one. -/
structure Decimal where
  digits : Text
  power : Int
  deriving Repr

namespace Decimal

/-- `num / den` as a count of units of `10 ^ unit`, rounded down. -/
def unitsBelow (num den : Nat) (unit : Int) : Nat :=
  if 0 ≤ unit then num / (den * Nat.pow 10 unit.toNat) else num * Nat.pow 10 (-unit).toNat / den

def leadingPower (num den : Nat) : Int :=
  let guess := ((bitLength num : Int) - bitLength den) * 30103 / 100000 - 1
  let up (k : Int) : Int := if unitsBelow num den (k + 1) > 0 then k + 1 else k
  up (up (up guess))

def fraction (m : Nat) (e : Int) : Nat × Nat :=
  if 0 ≤ e then (m <<< e.toNat, 1) else (m, 1 <<< (-e).toNat)

def unitsNearest (num den : Nat) (unit : Int) : Nat :=
  if 0 ≤ unit then divRound num (den * Nat.pow 10 unit.toNat)
  else divRound (num * Nat.pow 10 (-unit).toNat) den

def ofUnits (units : Nat) (unit : Int) : Decimal :=
  let ds := Text.ofNat units
  ⟨(ds.reverse.dropWhile (· == '0')).reverse, unit + ds.length - 1⟩

def readsBack (m : Nat) (e : Int) (units : Nat) (unit : Int) : Bool :=
  Double.le (Double.ofDecimal false units unit) (.finite false m e) &&
    Double.le (.finite false m e) (Double.ofDecimal false units unit)

/-- The nearer of the two neighbours on the grid `10 ^ unit` that read back. -/
def neighbour? (m : Nat) (e : Int) (unit : Int) : Option Nat :=
  let (num, den) := fraction m e
  let near := unitsNearest num den unit
  let below := unitsBelow num den unit
  [near, below, below + 1].find? fun u => readsBack m e u unit

/-- The coarsest grid, from `n` digits on, that holds a decimal reading back. -/
def shortestFrom (m : Nat) (e : Int) (lead : Int) : Nat → Nat → Decimal
  | 0, n =>
    let (num, den) := fraction m e
    ofUnits (unitsNearest num den (lead - n)) (lead - n)
  | fuel + 1, n =>
    match neighbour? m e (lead - n) with
    | some u => ofUnits u (lead - n)
    | none => shortestFrom m e lead fuel (n + 1)

/-- The fewest digits that read back as `m * 2 ^ e`. -/
def shortest (m : Nat) (e : Int) : Decimal :=
  if m = 0 then ⟨['0'], 0⟩
  else
    let (num, den) := fraction m e
    shortestFrom m e (leadingPower num den) 17 0

def significant (count m : Nat) (e : Int) : Decimal :=
  if m = 0 then ⟨['0'], 0⟩
  else
    let (num, den) := fraction m e
    let unit := leadingPower num den - (count - 1 : Nat)
    ofUnits (unitsNearest num den unit) unit

def scientific (d : Decimal) : Text :=
  let mantissa := match d.digits with
    | [] => ['0']
    | [c] => [c]
    | c :: cs => c :: '.' :: cs
  let size := Text.ofNat d.power.natAbs
  mantissa ++ ['e', if d.power < 0 then '-' else '+'] ++
    (if size.length < 2 then '0' :: size else size)

/-- Positional form; `point` asks for a fraction digit even where none is needed. -/
def positional (d : Decimal) (point : Bool) : Text :=
  if d.power < 0 then
    text "0." ++ List.replicate (d.power.natAbs - 1) '0' ++ d.digits
  else
    let whole := d.power.toNat + 1
    let front := d.digits.take whole
    let back := d.digits.drop whole
    let front := front ++ List.replicate (whole - front.length) '0'
    if back.isEmpty then if point then front ++ text ".0" else front
    else front ++ '.' :: back

end Decimal

namespace Double

def signed (negative : Bool) (t : Text) : Text := if negative then '-' :: t else t

/-- The shortest text that reads back; exponent form from `10 ^ 16` and below `10 ^ -4`. -/
def exactText : Double → Text
  | .nan => text "nan"
  | .infinite s => signed s (text "inf")
  | .finite s m e =>
    let d := Decimal.shortest m e
    signed s (if -4 ≤ d.power && d.power < 16 then d.positional true else d.scientific)

/-- Twelve significant digits; exponent form from `10 ^ 12` and below `10 ^ -4`. -/
def displayText : Double → Text
  | .nan => text "nan"
  | .infinite s => signed s (text "inf")
  | .finite s m e =>
    let d := Decimal.significant 12 m e
    signed s (if -4 ≤ d.power && d.power < 12 then d.positional false else d.scientific)

end Double

end Formulary
