import Formulary.Number.Decimal

/-! # Reading numbers

`isNumeral` is the test for a plain number: digits of any script with an optional
sign, fraction and exponent. The readers accept more: a digit run may hold
single underscores, blanks around are dropped, and the infinities and the
undefined value have names.
-/

namespace Formulary.Numeral

open Text

def dropSign : Text → Text
  | '+' :: rest | '-' :: rest => rest
  | t => t

def isSignedDigits (t : Text) : Bool :=
  let ds := dropSign t
  !ds.isEmpty && ds.all isDecimal

def isExponent : Text → Bool
  | [] => true
  | c :: rest => (c == 'e' || c == 'E') && isSignedDigits rest

/-- A sign, digits with at most one point among or around them, and an exponent. -/
def matchesPattern (t : Text) : Bool :=
  let t := dropSign t
  let whole := t.takeWhile isDecimal
  match t.dropWhile isDecimal with
  | '.' :: rest =>
    let fraction := rest.takeWhile isDecimal
    (!whole.isEmpty || !fraction.isEmpty) && isExponent (rest.dropWhile isDecimal)
  | rest => !whole.isEmpty && isExponent rest

def isNumeral (t : Text) : Bool := matchesPattern (strip t)

def digitsAfter : Text → Text × Text
  | [] => ([], [])
  | '_' :: d :: rest =>
    if isDecimal d then
      let (ds, after) := digitsAfter rest
      (d :: ds, after)
    else ([], '_' :: d :: rest)
  | d :: rest =>
    if isDecimal d then
      let (ds, after) := digitsAfter rest
      (d :: ds, after)
    else ([], d :: rest)

def digitRun : Text → Text × Text
  | [] => ([], [])
  | d :: rest =>
    if isDecimal d then
      let (ds, after) := digitsAfter rest
      (d :: ds, after)
    else ([], d :: rest)

def signOf : Text → Bool × Text
  | '+' :: rest => (false, rest)
  | '-' :: rest => (true, rest)
  | t => (false, t)

/-- An exponent that ends the text; none written counts as zero. -/
def exponent? : Text → Option Int
  | [] => some 0
  | c :: rest =>
    if c == 'e' || c == 'E' then
      let (negative, ds) := signOf rest
      match digitRun ds with
      | ([], _) => none
      | (run, []) => some (if negative then -(digitsValue run : Int) else digitsValue run)
      | _ => none
    else none

def double? (t : Text) : Option Double :=
  let (negative, body) := signOf (strip t)
  if lower body == text "inf" || lower body == text "infinity" then some (.infinite negative)
  else if lower body == text "nan" then some .nan
  else
    let (whole, rest) := digitRun body
    let (fraction, rest) := match rest with
      | '.' :: more => digitRun more
      | _ => ([], rest)
    if whole.isEmpty && fraction.isEmpty then none
    else do
      let e ← exponent? rest
      return .ofDecimal negative (digitsValue (whole ++ fraction)) (e - fraction.length)

def int? (t : Text) : Option Int :=
  let (negative, body) := signOf (strip t)
  match digitRun body with
  | ([], _) => none
  | (run, []) => some (if negative then -(digitsValue run : Int) else digitsValue run)
  | _ => none

end Formulary.Numeral
