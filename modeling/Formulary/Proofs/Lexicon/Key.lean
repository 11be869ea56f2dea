import Formulary.Lexicon.Builtin
import Formulary.Proofs.Text.Run

/-! # Keys of the lexicon

A regular lexicon has keys of a backslash and Latin letters, replaces them by texts
without backslashes, and whole words by one Greek letter; a letter alone is no word.
Which key stands at a backslash then depends on the Latin letters behind it only.
-/

namespace Formulary.Lexicon

open Text (Stops)

variable {lex : Lexicon} {t u key e : Text} {c : Char}

/-- A backslash and Latin letters, one at least. -/
structure IsKey (key : Text) : Prop where
  head : key.head? = some '\\'
  nonempty : key.tail ≠ []
  latin : ∀ c ∈ key.tail, isLatin c = true

theorem IsKey.eq (h : IsKey key) : key = '\\' :: key.tail := by
  obtain ⟨rest, rfl⟩ := List.head?_eq_some_iff.mp h.head
  rfl

structure Regular (lex : Lexicon) : Prop where
  key : ∀ e ∈ lex.entries, IsKey e.1
  replaced : ∀ e ∈ lex.entries, e.2.1 ≠ [] ∧ ∀ c ∈ e.2.1, c ≠ '\\' ∧ plainOperator c = c
  word : ∀ p ∈ lex.bareWords, 2 ≤ p.1.length ∧ ∃ c, p.2 = [c] ∧ isGreek c = true

theorem builtin_regular : builtin.Regular where
  key := by
    have hkeys : ∀ e ∈ builtin.entries, e.1.head? = some '\\' ∧ e.1.tail ≠ [] ∧
        e.1.tail.all isLatin = true := by decide +kernel
    exact fun e he => ⟨(hkeys e he).1, (hkeys e he).2.1, List.all_eq_true.mp (hkeys e he).2.2⟩
  replaced := by
    have hreplaced : ∀ e ∈ builtin.entries, e.2.1 ≠ [] ∧
        e.2.1.all (fun c => c != '\\' && plainOperator c == c) = true := by decide +kernel
    simpa using hreplaced
  word := by
    have hwords : ∀ p ∈ builtin.bareWords, 2 ≤ p.1.length ∧ isSingle isGreek p.2 = true := by
      decide +kernel
    intro p hp
    obtain ⟨hkey, hsingle⟩ := hwords p hp
    unfold isSingle at hsingle
    split at hsingle
    · exact ⟨hkey, _, ‹_›, hsingle⟩
    · simp at hsingle

/-! ### The longest key -/

/-- The better of the key found so far and the next one. -/
def better (t : Text) (best : Option (Text × Text)) (e : Text × Text × Bool) :
    Option (Text × Text) :=
  if fits t e.1 e.2.2 then
    match best with
    | some b => if b.1.length < e.1.length then some (e.1, e.2.1) else best
    | none => some (e.1, e.2.1)
  else best

theorem longest?_eq (lex : Lexicon) (t : Text) :
    lex.longest? t = lex.entries.foldl (better t) none := rfl

theorem better_cases (t : Text) (best : Option (Text × Text)) (e : Text × Text × Bool) :
    (fits t e.1 e.2.2 = true ∧ better t best e = some (e.1, e.2.1)) ∨
      (better t best e = best ∧ (fits t e.1 e.2.2 = true → best ≠ none)) := by
  unfold better
  split
  case isTrue hfits =>
    cases best with
    | none => exact Or.inl ⟨hfits, rfl⟩
    | some b =>
      dsimp only
      split
      · exact Or.inl ⟨hfits, rfl⟩
      · exact Or.inr ⟨rfl, by simp⟩
  case isFalse hfits => exact Or.inr ⟨rfl, fun h => absurd h hfits⟩

theorem foldl_better_eq_none_iff {entries : List (Text × Text × Bool)}
    {best : Option (Text × Text)} : entries.foldl (better t) best = none ↔
      best = none ∧ ∀ e ∈ entries, fits t e.1 e.2.2 = false := by
  induction entries generalizing best with
  | nil => simp
  | cons e entries ih =>
    rw [List.foldl_cons, ih, List.forall_mem_cons]
    rcases better_cases t best e with ⟨hfits, hbetter⟩ | ⟨hbetter, hfits⟩
    · simp [hbetter, hfits]
    · rw [hbetter]
      cases hf : fits t e.1 e.2.2 with
      | true => simp [hfits hf]
      | false => simp

theorem mem_foldl_better {entries : List (Text × Text × Bool)} {best : Option (Text × Text)}
    {p : Text × Text} (h : entries.foldl (better t) best = some p) :
    best = some p ∨ ∃ e ∈ entries, fits t e.1 e.2.2 = true ∧ (e.1, e.2.1) = p := by
  induction entries generalizing best with
  | nil => exact Or.inl h
  | cons e entries ih =>
    rcases ih h with hbest | ⟨e', he', hp⟩
    · rcases better_cases t best e with ⟨hfits, hbetter⟩ | ⟨hbetter, -⟩
      · exact Or.inr ⟨e, List.mem_cons_self, hfits, Option.some.inj (hbetter.symm.trans hbest)⟩
      · exact Or.inl (hbetter.symm.trans hbest)
    · exact Or.inr ⟨e', List.mem_cons_of_mem e he', hp⟩

theorem longest?_eq_none_iff :
    lex.longest? t = none ↔ ∀ e ∈ lex.entries, fits t e.1 e.2.2 = false := by
  rw [longest?_eq, foldl_better_eq_none_iff]
  simp

theorem exists_of_longest? (h : lex.longest? t = some (key, e)) :
    ∃ entry ∈ lex.entries, fits t entry.1 entry.2.2 = true ∧ entry.1 = key ∧ entry.2.1 = e := by
  rcases mem_foldl_better h with hnone | ⟨entry, hentry, hfits, hp⟩
  · simp at hnone
  · obtain ⟨rfl, rfl⟩ := Prod.mk.inj hp
    exact ⟨entry, hentry, hfits, rfl, rfl⟩

theorem longest?_congr (h : ∀ e ∈ lex.entries, fits t e.1 e.2.2 = fits u e.1 e.2.2) :
    lex.longest? t = lex.longest? u := by
  have hfold : ∀ entries : List (Text × Text × Bool),
      (∀ e ∈ entries, fits t e.1 e.2.2 = fits u e.1 e.2.2) →
        ∀ best, entries.foldl (better t) best = entries.foldl (better u) best := by
    intro entries h best
    induction entries generalizing best with
    | nil => rfl
    | cons e entries ih =>
      obtain ⟨he, hentries⟩ := List.forall_mem_cons.mp h
      have hbetter : better t best e = better u best e := by
        unfold better
        rw [he]
      rw [List.foldl_cons, List.foldl_cons, hbetter, ih hentries]
  exact hfold lex.entries h none

/-! ### Keys of a regular lexicon -/

theorem isPrefixOf_run {letters : Text} (hl : ∀ c ∈ letters, isLatin c = true) :
    letters.isPrefixOf t = letters.isPrefixOf (t.takeWhile isLatin) := by
  induction letters generalizing t with
  | nil => simp
  | cons c letters ih =>
    obtain ⟨hc, hl⟩ := List.forall_mem_cons.mp hl
    cases t with
    | nil => rfl
    | cons d t =>
      by_cases hd : isLatin d = true
      · rw [List.takeWhile_cons_of_pos hd, List.isPrefixOf_cons_cons,
          List.isPrefixOf_cons_cons, ih hl]
      · have hne : c ≠ d := by
          rintro rfl
          exact hd hc
        rw [List.takeWhile_cons_of_neg hd, List.isPrefixOf_cons_cons, beq_eq_false_iff_ne.mpr hne]
        rfl

theorem head?_drop_run (n : Nat) (h : n ≤ (t.takeWhile isLatin).length) :
    ((t.drop n).head?.map isLatin).getD false =
      (((t.takeWhile isLatin).drop n).head?.map isLatin).getD false := by
  induction n generalizing t with
  | zero =>
    cases t with
    | nil => rfl
    | cons c t => by_cases hc : isLatin c = true <;> simp [hc]
  | succ n ih =>
    cases t with
    | nil => rfl
    | cons c t =>
      by_cases hc : isLatin c = true
      · rw [List.takeWhile_cons_of_pos hc] at h ⊢
        exact ih (Nat.le_of_succ_le_succ h)
      · simp [hc] at h

theorem fits_run (hkey : IsKey key) (whole : Bool) :
    fits ('\\' :: t) key whole = fits ('\\' :: t.takeWhile isLatin) key whole := by
  unfold fits
  rw [hkey.eq, List.isPrefixOf_cons_cons, List.isPrefixOf_cons_cons, ← isPrefixOf_run hkey.latin]
  cases hpre : key.tail.isPrefixOf t with
  | false => simp
  | true =>
    rw [isPrefixOf_run hkey.latin] at hpre
    have hlength := (List.isPrefixOf_iff_prefix.mp hpre).length_le
    rw [List.length_cons, List.drop_succ_cons, List.drop_succ_cons, head?_drop_run _ hlength]

/-- Only the letters behind a backslash tell which key stands there. -/
theorem Regular.longest?_run (h : lex.Regular) :
    lex.longest? ('\\' :: t) = lex.longest? ('\\' :: t.takeWhile isLatin) :=
  longest?_congr fun e he => fits_run (h.key e he) e.2.2

theorem Regular.longest?_congr (h : lex.Regular)
    (hrun : t.takeWhile isLatin = u.takeWhile isLatin) :
    lex.longest? ('\\' :: t) = lex.longest? ('\\' :: u) := by
  rw [h.longest?_run, hrun, ← h.longest?_run]

theorem Regular.longest?_of_head (h : lex.Regular) (ht : t.head? ≠ some '\\') :
    lex.longest? t = none := by
  refine longest?_eq_none_iff.mpr fun e he => ?_
  have hpre : e.1.isPrefixOf t = false := by
    rw [(h.key e he).eq]
    cases t with
    | nil => rfl
    | cons c t =>
      have hne : '\\' ≠ c := by simpa [eq_comm] using ht
      rw [List.isPrefixOf_cons_cons, beq_eq_false_iff_ne.mpr hne]
      rfl
  rw [fits, hpre, Bool.false_and]

/-- A key found stands at the front, and what replaces it brings no backslash in. -/
theorem Regular.of_longest? (h : lex.Regular) (ht : lex.longest? t = some (key, e)) :
    IsKey key ∧ (∃ post, t = key ++ post) ∧ e ≠ [] ∧
      ∀ c ∈ e, c ≠ '\\' ∧ plainOperator c = c := by
  obtain ⟨entry, hentry, hfits, rfl, rfl⟩ := exists_of_longest? ht
  obtain ⟨hne, hchars⟩ := h.replaced entry hentry
  have hpre : entry.1.isPrefixOf t = true := by
    rw [fits, Bool.and_eq_true] at hfits
    exact hfits.1
  obtain ⟨post, rfl⟩ := List.isPrefixOf_iff_prefix.mp hpre
  exact ⟨h.key entry hentry, ⟨post, rfl⟩, hne, hchars⟩

end Formulary.Lexicon
