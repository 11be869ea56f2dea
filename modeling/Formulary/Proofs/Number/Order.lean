import Formulary.Proofs.Formula.Numeral

/-! # The order of doubles

Any two doubles that are defined compare, and a defined one does not exceed itself. So
a domain widened by a number has that number in it. What a numeral reads as is defined.
-/

namespace Formulary

namespace Binary

theorem addExact_neg_self (x : Binary) : (addExact x x.neg).mant = 0 := by
  have hexp : x.exp ≤ x.neg.exp := Int.le_refl _
  rw [addExact, if_pos hexp]
  change x.mant + (-x.mant) <<< (x.exp - x.exp).toNat = 0
  rw [Int.sub_self, Int.toNat_zero, Int.shiftLeft_zero]
  omega

theorem le_self (x : Binary) : le x x = true := by
  have hcompare : compare x x = .eq := by
    unfold compare
    rw [if_neg (by simp)]
    split
    · rfl
    · rw [if_neg (by simp), addExact_neg_self]
      rfl
  rw [le, hcompare]
  rfl

end Binary

namespace Double

variable {a b : Double}

theorem le_self (h : a.isNan = false) : le a a = true := by
  cases a with
  | finite negative m e => exact Binary.le_self _
  | infinite negative => cases negative <;> rfl
  | nan => cases h

theorem lt_eq (ha : a.isNan = false) (hb : b.isNan = false) : lt a b = !le b a := by
  cases a with
  | nan => cases ha
  | _ =>
    cases b with
    | nan => cases hb
    | _ => rfl

theorem not_isNan_of_le (h : le a b = true) : a.isNan = false ∧ b.isNan = false := by
  cases a with
  | nan => cases h
  | _ =>
    cases b with
    | nan =>
      revert h
      simp [le]
    | _ => exact ⟨rfl, rfl⟩

theorem not_isNan_of_isFinite (h : a.isFinite = true) : a.isNan = false := by
  cases a with
  | finite => rfl
  | infinite => rfl
  | nan => cases h

/-! ### Domains that are widened -/

theorem min_le_right (ha : a.isNan = false) (hb : b.isNan = false) : le (min a b) b = true := by
  unfold Double.min
  split
  case isTrue => exact le_self hb
  case isFalse h => simpa [lt_eq hb ha] using h

theorem le_max_right (ha : a.isNan = false) (hb : b.isNan = false) : le b (max a b) = true := by
  unfold Double.max
  split
  case isTrue => exact le_self hb
  case isFalse h => simpa [lt_eq ha hb] using h

/-! ### Numbers that are read -/

theorem isNan_ofRatio (negative : Bool) (num den : Nat) :
    (ofRatio negative num den).isNan = false := by
  have hlast : ∀ (m : Nat) (e : Int),
      (if e > 971 then Double.infinite negative else .finite negative m e).isNan = false := by
    intro m e
    split <;> rfl
  unfold ofRatio
  split
  · rfl
  · exact hlast _ _

theorem isNan_ofDecimal (negative : Bool) (digits : Nat) (power : Int) :
    (ofDecimal negative digits power).isNan = false := by
  unfold ofDecimal
  dsimp only
  split
  · rfl
  · split
    · rfl
    · split <;> exact isNan_ofRatio _ _ _

end Double

namespace Numeral

variable {t : Text} {x : Double}

theorem mem_of_mem_signOf {c : Char} (h : c ∈ (signOf t).2) : c ∈ t := by
  unfold signOf at h
  split at h
  · exact List.mem_cons_of_mem _ h
  · exact List.mem_cons_of_mem _ h
  · exact h

theorem isLatin_of_toLower {c : Char} (h : c.toLower = 'n') : isLatin c = true := by
  unfold Char.toLower at h
  split at h
  case isTrue hupper =>
    have hrange : 'A' ≤ c ∧ c ≤ 'Z' := hupper
    simp [isLatin, hrange]
  case isFalse =>
    rw [h]
    decide

/-- The one letter of a numeral does not spell the undefined value. -/
theorem lower_signOf_ne_nan (h : isNumeral t = true) :
    Text.lower (signOf (Text.strip t)).2 ≠ text "nan" := by
  intro hnan
  obtain ⟨before, behind, ht, -, -⟩ := Text.strip_split t
  have hmem : 'n' ∈ Text.lower (signOf (Text.strip t)).2 := by rw [hnan]; decide
  obtain ⟨c, hc, hlower⟩ := List.mem_map.mp hmem
  have hin : c ∈ t := by
    rw [ht]
    simp [mem_of_mem_signOf hc]
  have hletter : isLetter c = true := by simp [isLetter, isLatin_of_toLower hlower]
  have hmark : c ∈ (mark? t).toList := letters_of_isNumeral h ▸ List.mem_filter.mpr ⟨hin, hletter⟩
  have hexponent : isMark c = true := List.find?_some (Option.mem_toList.mp hmark)
  simp only [isMark, Bool.or_eq_true, beq_iff_eq] at hexponent
  rcases hexponent with rfl | rfl <;> exact absurd hlower (by decide)

theorem not_isNan_of_double? (h : isNumeral t = true) (hx : double? t = some x) :
    x.isNan = false := by
  unfold double? at hx
  dsimp only at hx
  split at hx
  case isTrue =>
    obtain rfl := Option.some.inj hx
    rfl
  case isFalse =>
    rw [if_neg (by simpa using lower_signOf_ne_nan h)] at hx
    -- with a fraction or without, the digits are read in the same way
    split at hx
    all_goals
      split at hx
      · cases hx
      · obtain ⟨e, -, he⟩ := Option.bind_eq_some_iff.mp hx
        obtain rfl := Option.some.inj he
        exact Double.isNan_ofDecimal _ _ _

end Numeral

end Formulary
