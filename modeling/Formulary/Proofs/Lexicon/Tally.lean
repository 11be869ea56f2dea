import Formulary.Proofs.Lexicon.Idempotence
import Formulary.Proofs.Lexicon.Parts
import Formulary.Proofs.Text.Run

/-! # What normalizing changes

Where neither letters nor backslashes follow, the end of a text stays. Of what commands
leave, the passes for operators and words take characters away, so a text that keeps
them is changed by commands alone.
-/

namespace Formulary.Lexicon

open Text (Stops)

variable {lex : Lexicon} {t u : Text} {c : Char} {d i : Nat} {g s : Bool}
  {skip : Option (Nat × Nat)}

/-! ### Ends of texts -/

/-- Neither the name of a command or word goes on here, nor a command begins. -/
def IsEnd (u : Text) : Prop := ∀ c ∈ u, isLatin c = false ∧ c ≠ '\\'

theorem IsEnd.stops (h : IsEnd u) : Stops isLatin u :=
  fun c hc => (h c (List.mem_of_mem_head? hc)).1

theorem takeWhile_append_end (hu : Stops isLatin u) :
    (t ++ u).takeWhile isLatin = t.takeWhile isLatin := by
  induction t with
  | nil => exact Text.takeWhile_eq_nil hu
  | cons c t ih => by_cases hc : isLatin c = true <;> simp [hc, ih]

namespace Regular

variable (h : lex.Regular)

include h

theorem longest?_append_end (hu : Stops isLatin u) :
    lex.longest? (c :: (t ++ u)) = lex.longest? (c :: t) := by
  by_cases hc : c = '\\'
  · subst hc
    exact h.longest?_congr (takeWhile_append_end hu)
  · have hhead : ∀ v : Text, (c :: v).head? ≠ some '\\' := fun v => by simpa using hc
    rw [h.longest?_of_head (hhead _), h.longest?_of_head (hhead _)]

theorem replacedFrom_append_end (hu : IsEnd u) :
    lex.replacedFrom g (t ++ u) = lex.replacedFrom g t ++ u := by
  induction g, t using h.induct with
  | nil g =>
    have hslash : '\\' ∉ u := fun hin => (hu _ hin).2 rfl
    rw [h.replacedFrom_nil, List.nil_append,
      h.replacedFrom_of_keyFree (h.keyFree_of_not_mem hslash)]
  | copy g c t hc ih =>
    have hc' : g = true ∨ lex.longest? (c :: (t ++ u)) = none := by
      rwa [h.longest?_append_end hu.stops]
    rw [replacedFrom_cons hc, List.cons_append, replacedFrom_cons hc', ih, List.cons_append]
  | key k e t hkey ih =>
    have hkey' : lex.longest? (k ++ (t ++ u)) = some (k, e) := by
      rw [← hkey, (h.of_longest? hkey).1.eq, List.cons_append, List.cons_append,
        ← List.append_assoc, h.longest?_append_end hu.stops]
    rw [h.replacedFrom_key hkey, List.append_assoc, h.replacedFrom_key hkey', ih, List.append_assoc]

theorem renamedFrom_append_end (hu : IsEnd u) :
    lex.renamedFrom skip i d s (t ++ u) = lex.renamedFrom skip i d s t ++ u := by
  induction t.runs generalizing i d s with
  | nil =>
    have hfree : lex.WordFree d s u := wordFree_of_not_latin fun c hc => (hu c hc).1
    rw [h.renamedFrom_nil, List.nil_append, h.renamedFrom_of_wordFree hfree]
  | char hc _ ih =>
    rw [List.cons_append, h.renamedFrom_char hc, h.renamedFrom_char hc, ih, List.cons_append]
  | @word w t hne hw hstop _ ih =>
    have hstop' : Stops isLatin (t ++ u) := by
      cases t with
      | nil => exact hu.stops
      | cons c t => exact hstop
    rw [List.append_assoc, h.renamedFrom_word hne hw hstop', h.renamedFrom_word hne hw hstop, ih,
      List.append_assoc]

/-- An end that holds no operator variants stays. -/
theorem exists_normalize_append_end (hu : IsEnd u) (hplain : ∀ c ∈ u, plainOperator c = c) :
    ∃ v, lex.normalize (t ++ u) = v ++ u := by
  rw [normalize_eq, List.map_append, map_plainOperator hplain, h.replacedFrom_append_end hu]
  exact ⟨_, h.renamedFrom_append_end hu⟩

/-! ### Characters kept -/

/-- Only backslashes and letters are taken away by commands. -/
theorem mem_replacedFrom (hc : c ∈ t) (hslash : c ≠ '\\') (hlatin : isLatin c = false) :
    c ∈ lex.replacedFrom g t := by
  induction g, t using h.induct with
  | nil => simp at hc
  | copy g b t hb ih =>
    rw [replacedFrom_cons hb, List.mem_cons]
    exact (List.mem_cons.mp hc).imp_right ih
  | key k e t hkey ih =>
    have hk := (h.of_longest? hkey).1
    rw [h.replacedFrom_key hkey, List.mem_append]
    rcases List.mem_append.mp hc with hin | hin
    · rw [hk.eq, List.mem_cons] at hin
      rcases hin with rfl | hin
      · exact absurd rfl hslash
      · simp [hk.latin c hin] at hlatin
    · exact Or.inr (ih hin)

/-- Words that are replaced take their letters with them. -/
theorem countP_renamedFrom : lex.renamedFrom skip i d s t = t ∨
    (lex.renamedFrom skip i d s t).countP isLatin < t.countP isLatin := by
  induction t.runs generalizing i d s with
  | nil => exact Or.inl h.renamedFrom_nil
  | char hc _ ih =>
    rw [h.renamedFrom_char hc, List.countP_cons, List.countP_cons]
    rcases ih with ih | ih
    · exact Or.inl (by rw [ih])
    · exact Or.inr (Nat.add_lt_add_right ih _)
  | @word w t hne hw hstop _ ih =>
    rw [h.renamedFrom_word hne hw hstop, List.countP_append, List.countP_append]
    rcases h.replaceWord_cases (decide (0 < d) || s || inSpan skip i) w with
      ⟨hkept, -⟩ | ⟨-, c, hc, hgreek⟩
    · rw [hkept]
      rcases ih with ih | ih
      · exact Or.inl (by rw [ih])
      · exact Or.inr (Nat.add_lt_add_left ih _)
    · apply Or.inr
      have hnone : [c].countP isLatin = 0 := by simp [isLatin_of_isGreek hgreek]
      have hword : w.countP isLatin = w.length := List.countP_eq_length.mpr hw
      have hlength := List.length_pos_iff.mpr hne
      have hle : (lex.renamedFrom skip (i + w.length) d false t).countP isLatin ≤
          t.countP isLatin := by
        rcases ih (i := i + w.length) (d := d) (s := false) with ih | ih
        · rw [ih]
        · exact ih.le
      rw [hc, hnone, hword]
      omega

/-- The characters that commands leave, in the same order, are left by commands alone. -/
theorem normalize_eq_replaceBackslash
    (hsolid : Text.solid (lex.normalize t) = Text.solid (lex.replaceBackslash t)) :
    lex.normalize t = lex.replaceBackslash t := by
  have hplain : ∀ c ∈ t, plainOperator c = c := by
    intro c hc
    by_contra hvariant
    have hclass : ∀ {p : Char → Bool}, ['−', '–', '×', '·'].any p = false → p c = false := by
      intro p hp
      by_contra hpc
      exact hvariant (plainOperator_of_class hp (by simpa using hpc))
    have hslash : c ≠ '\\' := by
      rintro rfl
      exact hvariant (by decide)
    have hleft : c ∈ lex.replaceBackslash t := by
      rw [replaceBackslash_eq]
      exact h.mem_replacedFrom hc hslash (hclass (by decide))
    have hblank : Text.isBlank c = false := hclass (by decide)
    have hkept : c ∈ Text.solid (lex.normalize t) := by
      rw [hsolid]
      exact Text.mem_solid.mpr ⟨hleft, hblank⟩
    exact hvariant (h.plain_normalize t c (Text.mem_solid.mp hkept).1)
  have hrenamed := normalize_eq lex t
  rw [map_plainOperator hplain] at hrenamed
  have hletters : (lex.normalize t).countP isLatin = (lex.replaceBackslash t).countP isLatin := by
    have hclass : ∀ c, isLatin c = true → Text.isBlank c = false := fun _ => isBlank_of_isLatin
    rw [← Text.countP_solid hclass, hsolid, Text.countP_solid hclass]
  rw [hrenamed] at hletters ⊢
  rcases h.countP_renamedFrom with hsame | hfewer
  · exact hsame
  · exact absurd hletters hfewer.ne

end Regular

end Formulary.Lexicon
