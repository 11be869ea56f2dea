import Formulary.Json.Basic
import Formulary.Number.Reading

/-! # Reading JSON

A recursive reader over code points. Of a key written twice the last value stays,
in the first one's place. `NaN` and the infinities are read as reals.
-/

namespace Formulary.Json

open Text

def isGap (c : Char) : Bool := c == ' ' || c == '\t' || c == '\n' || c == '\r'

def skipGap (t : Text) : Text := t.dropWhile isGap

def hexValue? (c : Char) : Option Nat :=
  if '0' ≤ c && c ≤ '9' then some (c.toNat - 48)
  else if 'a' ≤ c && c ≤ 'f' then some (c.toNat - 87)
  else if 'A' ≤ c && c ≤ 'F' then some (c.toNat - 55)
  else none

def hexUnit? (a b c d : Char) : Option Nat := do
  let a ← hexValue? a
  let b ← hexValue? b
  let c ← hexValue? c
  let d ← hexValue? d
  return ((a * 16 + b) * 16 + c) * 16 + d

def escaped? (c : Char) : Option Char :=
  match c with
  | '"' => some '"'
  | '\\' => some '\\'
  | '/' => some '/'
  | 'b' => some (Char.ofNat 8)
  | 'f' => some (Char.ofNat 12)
  | 'n' => some '\n'
  | 'r' => some '\r'
  | 't' => some '\t'
  | _ => none

/-- The rest of a text after its opening quote. A unit of the upper half of a pair
takes the next escape with it. -/
def readText : Nat → Text → Text → Option (Text × Text)
  | 0, _, _ => none
  | fuel + 1, acc, t =>
    match t with
    | '"' :: rest => some (acc.reverse, rest)
    | '\\' :: 'u' :: a :: b :: c :: d :: rest => do
      let unit ← hexUnit? a b c d
      if 0xD800 ≤ unit && unit < 0xDC00 then
        match rest with
        | '\\' :: 'u' :: a :: b :: c :: d :: rest => do
          let low ← hexUnit? a b c d
          readText fuel (Char.ofNat (0x10000 + (unit - 0xD800) * 0x400 + (low - 0xDC00)) :: acc)
            rest
        | _ => readText fuel (Char.ofNat 0xFFFD :: acc) rest
      else readText fuel (Char.ofNat unit :: acc) rest
    | '\\' :: c :: rest => do
      let c ← escaped? c
      readText fuel (c :: acc) rest
    | c :: rest => if c.toNat < 32 then none else readText fuel (c :: acc) rest
    | [] => none

def asciiDigits (t : Text) : Text × Text := (t.takeWhile isAsciiDigit, t.dropWhile isAsciiDigit)

def exponentPart (t : Text) : Option (Int × Text) :=
  match t with
  | c :: rest =>
    if c == 'e' || c == 'E' then
      let (negative, rest) := Numeral.signOf rest
      let (ds, after) := asciiDigits rest
      if ds.isEmpty then none
      else some ((if negative then -(digitsValue ds : Int) else digitsValue ds), after)
    else none
  | [] => none

def fractionPart (t : Text) : Option (Text × Text) :=
  match t with
  | '.' :: rest =>
    let (ds, after) := asciiDigits rest
    if ds.isEmpty then none else some (ds, after)
  | _ => none

def readNumber? (t : Text) : Option (Json × Text) :=
  let (negative, body) := match t with
    | '-' :: rest => (true, rest)
    | _ => (false, t)
  let (whole, rest) := match body with
    | '0' :: rest => (['0'], rest)
    | _ => asciiDigits body
  if whole.isEmpty then none
  else
    let (fraction, rest) := (fractionPart rest).getD ([], rest)
    let (exponent, after) := match exponentPart rest with
      | some (e, after) => (some e, after)
      | none => (none, rest)
    if fraction.isEmpty && exponent.isNone then
      let n : Int := digitsValue whole
      some (.int (if negative then -n else n), after)
    else
      some (.real (.ofDecimal negative (digitsValue (whole ++ fraction))
        (exponent.getD 0 - fraction.length)), after)

def words? : List (String × Json) :=
  [("null", .null), ("true", .bool true), ("false", .bool false), ("NaN", .real .nan),
   ("Infinity", .real (.infinite false)), ("-Infinity", .real (.infinite true))]

mutual

def readValue : Nat → Text → Option (Json × Text)
  | 0, _ => none
  | fuel + 1, t =>
    match skipGap t with
    | '"' :: rest => do
      let (s, rest) ← readText (rest.length + 1) [] rest
      return (.str s, rest)
    | '[' :: rest =>
      match skipGap rest with
      | ']' :: rest => some (.arr [], rest)
      | _ => do
        let (items, rest) ← readItems fuel rest
        return (.arr items, rest)
    | '{' :: rest =>
      match skipGap rest with
      | '}' :: rest => some (.obj [], rest)
      | _ => do
        let (ms, rest) ← readMembers fuel [] rest
        return (.obj ms, rest)
    | rest =>
      match words?.find? fun w => (text w.1).isPrefixOf rest with
      | some (w, j) => some (j, rest.drop w.length)
      | none => readNumber? rest

def readItems : Nat → Text → Option (List Json × Text)
  | 0, _ => none
  | fuel + 1, t => do
    let (j, rest) ← readValue fuel t
    match skipGap rest with
    | ']' :: rest => return ([j], rest)
    | ',' :: rest =>
      let (items, rest) ← readItems fuel rest
      return (j :: items, rest)
    | _ => none

def readMembers : Nat → List (Text × Json) → Text → Option (List (Text × Json) × Text)
  | 0, _, _ => none
  | fuel + 1, acc, t =>
    match skipGap t with
    | '"' :: rest => do
      let (key, rest) ← readText (rest.length + 1) [] rest
      match skipGap rest with
      | ':' :: rest =>
        let (j, rest) ← readValue fuel rest
        let acc := setField key j acc
        match skipGap rest with
        | '}' :: rest => return (acc, rest)
        | ',' :: rest => readMembers fuel acc rest
        | _ => none
      | _ => none
    | _ => none

end

/-- The value that the whole text writes. -/
def parse? (t : Text) : Option Json := do
  let (j, rest) ← readValue (t.length + 1) t
  if (skipGap rest).isEmpty then some j else none

end Formulary.Json
