import Mathlib.Data.List.Basic
import Formulary.Formula.Token
import Formulary.Proofs.Text.Run
import Formulary.Text.Identifier

/-! # Classes of characters

Letters, digits and blanks are told apart by their code points, so no character
is in two of the classes that the tokens of a formula start with.
-/

namespace Formulary

variable {c : Char}

theorem isLatin_iff :
    isLatin c = true ↔ (97 ≤ c.toNat ∧ c.toNat ≤ 122) ∨ (65 ≤ c.toNat ∧ c.toNat ≤ 90) := by
  simp [isLatin, Char.le_def, UInt32.le_iff_toNat_le]

theorem toNat_of_isGreek (h : isGreek c = true) : 913 ≤ c.toNat ∧ c.toNat ≤ 1013 := by
  simp only [isGreek, Bool.or_eq_true, Bool.and_eq_true, decide_eq_true_eq, beq_iff_eq] at h
  rcases h with ((((((h | h) | rfl) | rfl) | rfl) | rfl) | rfl)
  · omega
  · omega
  all_goals decide

theorem toNat_of_isLetter (h : isLetter c = true) :
    (97 ≤ c.toNat ∧ c.toNat ≤ 122) ∨ (65 ≤ c.toNat ∧ c.toNat ≤ 90) ∨
      (913 ≤ c.toNat ∧ c.toNat ≤ 1013) := by
  rw [isLetter, Bool.or_eq_true, isLatin_iff] at h
  rcases h with (h | h) | h
  · exact Or.inl h
  · exact Or.inr (Or.inl h)
  · exact Or.inr (Or.inr (toNat_of_isGreek h))

theorem isLatin_of_isGreek (h : isGreek c = true) : isLatin c = false := by
  rw [Bool.eq_false_iff, ne_eq, isLatin_iff]
  have := toNat_of_isGreek h
  omega

namespace Text

theorem isAsciiDigit_iff : isAsciiDigit c = true ↔ 48 ≤ c.toNat ∧ c.toNat ≤ 57 := by
  simp [isAsciiDigit, Char.le_def, UInt32.le_iff_toNat_le]

theorem isBlank_eq_false
    (h : (33 ≤ c.toNat ∧ c.toNat ≤ 132) ∨ (161 ≤ c.toNat ∧ c.toNat ≤ 5759)) :
    isBlank c = false := by
  simp only [isBlank, inRanges, List.any_cons, List.any_nil, Bool.or_eq_false_iff,
    Bool.and_eq_false_iff, decide_eq_false_iff_not, Bool.or_false]
  omega

theorem isBlank_of_isAsciiDigit (h : isAsciiDigit c = true) : isBlank c = false := by
  rw [isAsciiDigit_iff] at h
  exact isBlank_eq_false (Or.inl (by omega))

/-- The tables of identifier characters start above ASCII. -/
theorem isIdentRest_of_ascii (h : c.toNat < 128) : isIdentRest c = (c.isAlphanum || c == '_') := by
  have habove : ∀ rs : List (Nat × Nat), (∀ r ∈ rs, 128 ≤ r.1) → inRanges c rs = false := by
    intro rs hrs
    refine List.any_eq_false.mpr fun r hr => ?_
    have := hrs r hr
    simp only [Bool.and_eq_true, decide_eq_true_eq, not_and]
    omega
  unfold isIdentRest
  rw [habove _ (by decide +kernel), habove _ (by decide +kernel), Bool.or_false, Bool.or_false]

end Text

theorem isBlank_of_isLetter (h : isLetter c = true) : Text.isBlank c = false := by
  have := toNat_of_isLetter h
  exact Text.isBlank_eq_false (by omega)

theorem isBlank_of_isLatin (h : isLatin c = true) : Text.isBlank c = false :=
  isBlank_of_isLetter (by simp [isLetter, h])

theorem isLatin_of_isBlank (h : Text.isBlank c = true) : isLatin c = false := by
  rw [Bool.eq_false_iff]
  intro hl
  simp [isBlank_of_isLatin hl] at h

theorem isAsciiDigit_of_isLetter (h : isLetter c = true) : Text.isAsciiDigit c = false := by
  rw [Bool.eq_false_iff, ne_eq, Text.isAsciiDigit_iff]
  have := toNat_of_isLetter h
  omega

/-- A letter is none of the marks of the formula language, whose code points lie elsewhere. -/
theorem ne_of_isLetter {d : Char} (h : isLetter c = true) (hd : isLetter d = false) : c ≠ d := by
  rintro rfl
  simp [h] at hd

namespace Formula

theorem isBlank_of_isNameChar (h : isNameChar c = true) : Text.isBlank c = false := by
  rcases (Bool.or_eq_true _ _).mp h with h | h
  · exact isBlank_of_isLetter h
  · exact Text.isBlank_of_isAsciiDigit h

theorem isNameChar_of_isLetter (h : isLetter c = true) : isNameChar c = true := by
  simp [isNameChar, h]

theorem isNameChar_of_isBlank (h : Text.isBlank c = true) : isNameChar c = false := by
  rw [Bool.eq_false_iff]
  intro hn
  simp [isBlank_of_isNameChar hn] at h

end Formula

end Formulary

/-! ## Decimal spellings

A number is spelled in ASCII digits and its spelling is worth the number. What a text
ends with in decimal digits, of whatever script, is its number; a text without such an
ending has the number zero.
-/

namespace Formulary.Text

variable {c : Char} {n : Nat} {t ds front : Text}

/-! ### Spellings -/

theorem digitValue?_of_isAsciiDigit (h : isAsciiDigit c = true) :
    digitValue? c = some (c.toNat - 48) := by
  rw [isAsciiDigit_iff] at h
  have hzero : zeros.find? (fun z => z ≤ c.toNat && c.toNat < z + 10) = some 48 :=
    List.find?_cons_of_pos (by simp; omega)
  rw [digitValue?, hzero, Option.map_some]

theorem isDecimal_of_isAsciiDigit (h : isAsciiDigit c = true) : isDecimal c = true := by
  simp [isDecimal, digitValue?_of_isAsciiDigit h]

theorem ofNat_ne_nil (n : Nat) : ofNat n ≠ [] := Nat.toDigits_ne_nil

theorem isAsciiDigit_of_mem_ofNat (hc : c ∈ ofNat n) : isAsciiDigit c = true := by
  have hdigit := Nat.isDigit_of_mem_toDigits (by decide) (by decide) hc
  rw [isAsciiDigit_iff]
  simpa [Char.isDigit, UInt32.le_iff_toNat_le] using hdigit

theorem isDecimal_of_mem_ofNat (hc : c ∈ ofNat n) : isDecimal c = true :=
  isDecimal_of_isAsciiDigit (isAsciiDigit_of_mem_ofNat hc)

theorem digitsValue_concat (ds : Text) (c : Char) :
    digitsValue (ds ++ [c]) = 10 * digitsValue ds + (digitValue? c).getD 0 := by
  simp [digitsValue]

theorem digitsValue_ofNat (n : Nat) : digitsValue (ofNat n) = n := by
  have hdigits : digitsValue (ofNat n) = Nat.ofDigitChars 10 (ofNat n) 0 := by
    rw [digitsValue, Nat.ofDigitChars_eq_foldl]
    refine List.foldl_ext _ _ 0 fun m c hc => ?_
    rw [digitValue?_of_isAsciiDigit (isAsciiDigit_of_mem_ofNat hc)]
    rfl
  rw [hdigits]
  exact Nat.ofDigitChars_ten_toDigits

/-! ### The number at the end of a text -/

/-- The decimal digits that a text ends with. -/
def lastDigits (t : Text) : Text := (t.reverse.takeWhile isDecimal).reverse

def lastNumber (t : Text) : Nat := digitsValue (lastDigits t)

theorem lastDigits_append (hfront : Stops isDecimal front.reverse)
    (hds : ∀ c ∈ ds, isDecimal c = true) : lastDigits (front ++ ds) = ds := by
  have hds' : ∀ c ∈ ds.reverse, isDecimal c = true := fun c hc => hds c (List.mem_reverse.mp hc)
  rw [lastDigits, List.reverse_append, takeWhile_append_stop hds' hfront, List.reverse_reverse]

theorem lastNumber_append_ofNat (hfront : Stops isDecimal front.reverse) (n : Nat) :
    lastNumber (front ++ ofNat n) = n := by
  rw [lastNumber, lastDigits_append hfront fun _ => isDecimal_of_mem_ofNat, digitsValue_ofNat]

/-- A digit more is one more place. -/
theorem lastNumber_concat (t : Text) (hc : isAsciiDigit c = true) :
    lastNumber (t ++ [c]) = 10 * lastNumber t + (c.toNat - 48) := by
  have hdecimal := isDecimal_of_isAsciiDigit hc
  have hdigits : lastDigits (t ++ [c]) = lastDigits t ++ [c] := by
    simp [lastDigits, hdecimal]
  rw [lastNumber, hdigits, digitsValue_concat, digitValue?_of_isAsciiDigit hc, Option.getD_some]
  rfl

theorem lastNumber_of_stops (h : Stops isDecimal t.reverse) : lastNumber t = 0 := by
  rw [lastNumber, lastDigits, takeWhile_eq_nil h]
  rfl

end Formulary.Text
