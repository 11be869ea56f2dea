import Formulary.Text.Identifier
import Formulary.Proofs.Formula.WrittenOut

/-! # Words of a text

A word is a maximal run of identifier characters. Only a bracket opens a call, so
whether a name is called shows in the text after the word.
-/

namespace Formulary.Text

open Formula (Leads isGap leads_cons)

variable {t u w after before n : Text} {c : Char}

/-! ### Characters -/

theorem isIdentRest_of_start (h : isIdentStart c = true) : isIdentRest c = true := by
  unfold isIdentStart isIdentRest at *
  simp only [Char.isAlphanum, Bool.or_eq_true] at h ⊢
  rcases h with (h | h) | h
  · exact Or.inl (Or.inl (Or.inl (Or.inl h)))
  · exact Or.inl (Or.inl (Or.inr h))
  · exact Or.inl (Or.inr h)

theorem isIdentRest_of_isBlank (h : isBlank c = true) : isIdentRest c = false := by
  have hall : ∀ r ∈ [(9, 13), (28, 32), (0x85, 0x85), (0xA0, 0xA0), (0x1680, 0x1680),
      (0x2000, 0x200A), (0x2028, 0x2029), (0x202F, 0x202F), (0x205F, 0x205F), (0x3000, 0x3000)],
      ∀ k ∈ List.range (r.2 - r.1 + 1), isIdentRest (Char.ofNat (r.1 + k)) = false := by
    decide +kernel
  obtain ⟨r, hr, hc⟩ := List.any_eq_true.mp h
  simp only [Bool.and_eq_true, decide_eq_true_eq] at hc
  have := hall r hr (c.toNat - r.1) (List.mem_range.mpr (by omega))
  rwa [Nat.add_sub_cancel' hc.1, Char.ofNat_toNat] at this

/-! ### Words -/

/-- The text holds `w` as a maximal run of identifier characters, with `after` behind it. -/
structure WordIn (w after t : Text) : Prop where
  chars : ∀ c ∈ w, isIdentRest c = true
  stops : Stops isIdentRest after
  split : ∃ before, t = before ++ (w ++ after) ∧ Stops isIdentRest before.reverse

theorem wordIn_front (hw : ∀ c ∈ w, isIdentRest c = true) (ha : Stops isIdentRest after) :
    WordIn w after (w ++ after) :=
  ⟨hw, ha, [], rfl, by simp [Stops]⟩

theorem stops_reverse_append (hne : before ≠ []) (h : Stops isIdentRest before.reverse) :
    Stops isIdentRest (u ++ before).reverse := by
  obtain ⟨d, rest, hd⟩ := List.exists_cons_of_ne_nil (List.reverse_ne_nil_iff.mpr hne)
  rw [List.reverse_append, hd]
  rw [hd] at h
  simpa [Stops] using h

/-- A word of the end of a text is one of the text if the end does not begin within a run. -/
theorem WordIn.append (h : WordIn w after t) (hne : w ≠ [])
    (hu : Stops isIdentRest u.reverse ∨ Stops isIdentRest t) : WordIn w after (u ++ t) := by
  obtain ⟨hw, ha, before, rfl, hb⟩ := h
  refine ⟨hw, ha, u ++ before, by simp, ?_⟩
  cases before with
  | cons d before => exact stops_reverse_append (by simp) hb
  | nil =>
    rcases hu with hu | hu
    · simpa using hu
    · obtain ⟨c, rest, rfl⟩ := List.exists_cons_of_ne_nil hne
      have hc : isIdentRest c = false := hu c rfl
      simp [hw c List.mem_cons_self] at hc

/-- A word of two texts put together is one of the second, or it begins in the first. -/
theorem WordIn.of_append (h : WordIn w after (u ++ t)) : WordIn w after t ∨
    ∃ front m, u = front ++ m ∧ m ≠ [] ∧ m ++ t = w ++ after ∧ Stops isIdentRest front.reverse := by
  obtain ⟨hw, ha, before, ht, hb⟩ := h
  rcases List.append_eq_append_iff.mp ht with ⟨rest, rfl, hrest⟩ | ⟨m, rfl, hm⟩
  · left
    refine ⟨hw, ha, rest, hrest, ?_⟩
    cases rest with
    | nil => simp [Stops]
    | cons c rest =>
      intro d hd
      apply hb d
      rw [List.reverse_append]
      simp_all
  · by_cases hne : m = []
    · subst hne
      left
      rw [show t = w ++ after by simpa using hm.symm]
      exact wordIn_front hw ha
    · exact Or.inr ⟨before, m, rfl, hne, hm.symm, hb⟩

/-- A run that a word begins with is a part of it. -/
theorem eq_append_of_run {m : Text} (hm : ∀ c ∈ m, isIdentRest c = true)
    (hw : ∀ c ∈ w, isIdentRest c = true) (ha : Stops isIdentRest after)
    (h : m ++ t = w ++ after) : ∃ more, w = m ++ more ∧ t = more ++ after := by
  have htake := congrArg (List.takeWhile isIdentRest) h
  have hdrop := congrArg (List.dropWhile isIdentRest) h
  rw [Text.takeWhile_append_stop hw ha, List.takeWhile_append_of_pos hm] at htake
  rw [Text.dropWhile_append_stop hw ha, List.dropWhile_append_of_pos hm] at hdrop
  exact ⟨t.takeWhile isIdentRest, htake.symm, by rw [← hdrop, List.takeWhile_append_dropWhile]⟩

/-- Identifier characters of which the first may begin an identifier. -/
structure IsName (n : Text) : Prop where
  start : n.head?.any isIdentStart = true
  chars : ∀ c ∈ n, isIdentRest c = true

theorem IsName.ne_nil (h : IsName n) : n ≠ [] := by
  rintro rfl
  simpa using h.start

/-! ### Texts with names of one kind -/

/-- The names in the text that are not called all satisfy `P`. -/
def OnlyNames (P : Text → Prop) (t : Text) : Prop :=
  ∀ n after, IsName n → WordIn n after t → ¬ Leads after → P n

theorem onlyNames_nil {P : Text → Prop} : OnlyNames P [] := by
  rintro n after hn ⟨-, -, before, h, -⟩ -
  have : n = [] := by simp_all
  exact absurd this hn.ne_nil

/-- A text that is one word has only that for a name. -/
theorem OnlyNames.word {P : Text → Prop} (hw : w.all isIdentRest = true) (hP : P w) :
    OnlyNames P w := by
  rw [List.all_eq_true] at hw
  rintro n after - ⟨-, ha, before, rfl, hb⟩ -
  have hafter : after = [] := by
    cases after with
    | nil => rfl
    | cons c after =>
      have hc : isIdentRest c = false := ha c rfl
      simp [hw c (by simp)] at hc
  have hbefore : before = [] := by
    cases hr : before.reverse with
    | nil => simpa using hr
    | cons c rest =>
      have hc : isIdentRest c = false := hb c (by simp [hr])
      have hmem : c ∈ before := List.mem_reverse.mp (by simp [hr])
      simp [hw c (by simp [hmem])] at hc
  simpa [hafter, hbefore] using hP

/-- In front of a text there may stand what no name of another kind begins with. -/
theorem OnlyNames.of_heads {P : Text → Prop} (h : OnlyNames P t)
    (hu : ∀ n, IsName n → ¬ P n → ∀ c ∈ u, n.head? ≠ some c) : OnlyNames P (u ++ t) := by
  intro n after hn hword hl
  rcases hword.of_append with hword | ⟨front, m, rfl, hne, hm, -⟩
  · exact h n after hn hword hl
  · obtain ⟨c, m, rfl⟩ := List.exists_cons_of_ne_nil hne
    obtain ⟨d, rest, rfl⟩ := List.exists_cons_of_ne_nil hn.ne_nil
    obtain ⟨rfl, -⟩ := List.cons.inj hm
    by_contra hP
    exact hu _ hn hP c (by simp) rfl

theorem OnlyNames.of_not_start {P : Text → Prop} (h : OnlyNames P t)
    (hu : ∀ c ∈ u, isIdentStart c = false) : OnlyNames P (u ++ t) := by
  refine h.of_heads fun n hn _ c hc hhead => ?_
  have := hn.start
  simp [hhead, hu c hc] at this

theorem Leads.append (h : Leads t) : Leads (t ++ u) := by
  unfold Leads at h ⊢
  have hne : t.dropWhile isGap ≠ [] := by
    intro hnil
    simp [hnil] at h
  rw [List.dropWhile_append, if_neg (by simpa using hne), List.head?_append, h]
  rfl

/-- Texts can be put together where no word goes across. -/
theorem OnlyNames.append {P : Text → Prop} (hu : OnlyNames P u) (ht : OnlyNames P t)
    (hstops : Stops isIdentRest t) : OnlyNames P (u ++ t) := by
  intro n after hn hword hl
  rcases hword.of_append with hword' | ⟨front, m, rfl, -, hm, hfront⟩
  · exact ht n after hn hword' hl
  · rcases List.append_eq_append_iff.mp hm with ⟨rest, rfl, hrest⟩ | ⟨rest, rfl, hrest⟩
    · -- The name goes into the second text only if nothing of it is there.
      have hnil : rest = [] := by
        cases rest with
        | nil => rfl
        | cons c rest =>
          have := hstops c (by simp [hrest])
          simp [hn.chars c (by simp)] at this
      subst hnil
      refine hu _ [] hn ⟨hn.chars, by simp [Stops], front, by simp, hfront⟩ ?_
      simp [Leads]
    · refine hu n rest hn ⟨hn.chars, ?_, front, rfl, hfront⟩ fun hlead => hl ?_
      · cases rest with
        | nil => simp [Stops]
        | cons c rest =>
          intro d hd
          exact hword.stops d (by simp_all)
      · rw [hrest]
        exact Leads.append hlead

end Formulary.Text
