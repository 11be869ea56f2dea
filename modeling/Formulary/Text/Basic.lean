
/-! # Text as code points

A text is the list of its code points, so positions, lengths and spans all count
list members. `strip` and `words` cut at blanks, whose class is fixed here.
-/

namespace Formulary

abbrev Text := List Char

namespace Text

def inRanges (c : Char) (ranges : List (Nat × Nat)) : Bool :=
  ranges.any fun r => r.1 ≤ c.toNat && c.toNat ≤ r.2

/-- The separators that may be dropped around a text. -/
def isBlank (c : Char) : Bool :=
  inRanges c [(9, 13), (28, 32), (0x85, 0x85), (0xA0, 0xA0), (0x1680, 0x1680), (0x2000, 0x200A),
    (0x2028, 0x2029), (0x202F, 0x202F), (0x205F, 0x205F), (0x3000, 0x3000)]

def stripLeft (t : Text) : Text := t.dropWhile isBlank

def stripRight (t : Text) : Text := (t.reverse.dropWhile isBlank).reverse

def strip (t : Text) : Text := stripRight (stripLeft t)

def isBlankText (t : Text) : Bool := t.all isBlank

/-- The maximal blank-free runs, in order; `word` is the run being read, reversed. -/
def wordsFrom (word : Text) : Text → List Text
  | [] => if word.isEmpty then [] else [word.reverse]
  | c :: rest =>
    if isBlank c then
      if word.isEmpty then wordsFrom [] rest else word.reverse :: wordsFrom [] rest
    else wordsFrom (c :: word) rest

def words (t : Text) : List Text := wordsFrom [] t

/-- The pieces between the occurrences of `sep`; one more than there are occurrences. -/
def splitOn (sep : Char) : Text → List Text
  | [] => [[]]
  | c :: rest =>
    if c = sep then [] :: splitOn sep rest
    else match splitOn sep rest with
      | [] => [[c]]
      | piece :: pieces => (c :: piece) :: pieces

def join (sep : Text) : List Text → Text
  | [] => []
  | [t] => t
  | t :: ts => t ++ sep ++ join sep ts

/-- The part of `t` from position `start` up to, not including, `stop`. -/
def slice (t : Text) (start stop : Nat) : Text := (t.take stop).drop start

def cut? (c : Char) : Text → Option (Text × Text)
  | [] => none
  | d :: rest =>
    if d = c then some ([], rest) else (cut? c rest).map fun p => (d :: p.1, p.2)

theorem eq_of_cut? {c : Char} {t a b : Text} (h : cut? c t = some (a, b)) : t = a ++ c :: b := by
  induction t generalizing a with
  | nil => simp [cut?] at h
  | cons d rest ih =>
    unfold cut? at h
    split at h
    · simp_all
    · cases hr : cut? c rest with
      | none => simp [hr] at h
      | some p =>
        obtain ⟨x, y⟩ := p
        simp only [hr, Option.map_some, Option.some.injEq, Prod.mk.injEq] at h
        obtain ⟨rfl, rfl⟩ := h
        simp [ih hr]

theorem length_of_cut? {c : Char} {t a b : Text} (h : cut? c t = some (a, b)) :
    t.length = a.length + b.length + 1 := by
  simp [eq_of_cut? h]; omega

def find? (t : Text) (c : Char) (start : Nat) : Option Nat :=
  ((t.drop start).findIdx? (· == c)).map (· + start)

/-- The letters of the basic alphabet in lower case; no other letter changes. -/
def lower (t : Text) : Text := t.map Char.toLower

def startsWith (t pre : Text) : Bool := pre.isPrefixOf t

/-- Order by code points, a shorter text before its extensions. -/
def le : Text → Text → Bool
  | [], _ => true
  | _ :: _, [] => false
  | a :: s, b :: t => a.toNat < b.toNat || (a.toNat == b.toNat && le s t)

def sort (ts : List Text) : List Text := ts.mergeSort le

/-- Each member once, at its first place. -/
def dedup (ts : List Text) : List Text :=
  ts.foldl (fun seen t => if seen.contains t then seen else seen ++ [t]) []

def str (t : Text) : String := String.ofList t

end Text

/-- Text literals are written as strings. -/
def text (s : String) : Text := s.toList

@[simp] theorem text_inj {s t : String} : text s = text t ↔ s = t := String.toList_inj

end Formulary

/-! ## Digits of all scripts

Each script's decimal digits are ten consecutive code points (Unicode 14), so a
table of zeros gives every digit its value. A wider class adds the digits that
stand above, below or inside a sign and have no decimal use.
-/

namespace Formulary.Text

/-- The code points of the digit zero, one for each script. -/
def zeros : List Nat :=
  [48, 1632, 1776, 1984, 2406, 2534, 2662, 2790, 2918, 3046, 3174, 3302, 3430, 3558, 3664, 3792,
   3872, 4160, 4240, 6112, 6160, 6470, 6608, 6784, 6800, 6992, 7088, 7232, 7248, 42528, 43216,
   43264, 43472, 43504, 43600, 44016, 65296, 66720, 68912, 69734, 69872, 69942, 70096, 70384,
   70736, 70864, 71248, 71360, 71472, 71904, 72016, 72784, 73040, 73120, 92768, 92864, 93008,
   120782, 120792, 120802, 120812, 120822, 123200, 123632, 125264, 130032]

def digitValue? (c : Char) : Option Nat :=
  (zeros.find? fun z => z ≤ c.toNat && c.toNat < z + 10).map (c.toNat - ·)

def isDecimal (c : Char) : Bool := (digitValue? c).isSome

/-- Decimal digits, and superscript, subscript and enclosed ones. -/
def isDigitLike (c : Char) : Bool :=
  isDecimal c || inRanges c [(178, 179), (185, 185), (4969, 4977), (6618, 6618), (8304, 8304),
    (8308, 8313), (8320, 8329), (9312, 9320), (9332, 9340), (9352, 9360), (9450, 9450),
    (9461, 9469), (9471, 9471), (10102, 10110), (10112, 10120), (10122, 10130), (68160, 68163),
    (69216, 69224), (69714, 69722), (127232, 127242)]

def isAsciiDigit (c : Char) : Bool := '0' ≤ c && c ≤ '9'

/-- The number a run of decimal digits spells; other characters count as zero. -/
def digitsValue (ds : Text) : Nat :=
  ds.foldl (fun n c => 10 * n + (digitValue? c).getD 0) 0

def ofNat (n : Nat) : Text := Nat.toDigits 10 n

end Formulary.Text
