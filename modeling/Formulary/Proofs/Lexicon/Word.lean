import Formulary.Proofs.Lexicon.Command
import Formulary.Proofs.Text.Classes

/-! # Words replaced

A text is read in runs of Latin letters and other characters. A run is replaced as a
whole, and by something that is no Latin letter, so the runs that stay are those that
were there, in the same place between the same brackets.
-/

namespace Formulary

/-- A text in runs of Latin letters, each as long as it goes, and other characters. -/
inductive Text.Runs : Text → Prop
  | nil : Runs []
  | char {c : Char} {t : Text} (hc : isLatin c = false) (h : Runs t) : Runs (c :: t)
  | word {w t : Text} (hne : w ≠ []) (hw : ∀ c ∈ w, isLatin c = true)
      (hstop : Text.Stops isLatin t) (h : Runs t) : Runs (w ++ t)

theorem Text.runs (t : Text) : t.Runs := by
  induction hn : t.length using Nat.strongRecOn generalizing t with
  | _ n ih =>
    subst hn
    cases t with
    | nil => exact .nil
    | cons c t =>
      by_cases hc : isLatin c = true
      · have hshorter : ((c :: t).dropWhile isLatin).length < (c :: t).length := by
          rw [List.dropWhile_cons_of_pos hc]
          exact Nat.lt_succ_of_le (List.dropWhile_sublist _).length_le
        have hrest := ih _ hshorter ((c :: t).dropWhile isLatin) rfl
        rw [← List.takeWhile_append_dropWhile (p := isLatin) (l := c :: t)]
        exact .word (by simp [hc]) (fun _ => List.mem_takeWhile_imp)
          (Text.stops_dropWhile _ _) hrest
      · exact .char (by simpa using hc) (ih t.length (Nat.lt_succ_self _) t rfl)

namespace Lexicon

open Text (Stops)

variable {lex : Lexicon} {t w : Text} {c : Char} {d i : Nat} {g s : Bool} {prev : Option Char}
  {skip : Option (Nat × Nat)}

/-- How many braces are open behind a character. -/
def deeper (depth : Nat) (c : Char) : Nat :=
  if c = '\x7b' then depth + 1 else if c = '\x7d' then depth - 1 else depth

/-- A run stays, or is not protected and becomes a Greek letter. -/
theorem Regular.replaceWord_cases (h : lex.Regular) (g : Bool) (w : Text) :
    (lex.replaceWord g w = w ∧ (g = false → lookup? lex.bareWords w = none)) ∨
      (g = false ∧ ∃ c, lex.replaceWord g w = [c] ∧ isGreek c = true) := by
  unfold replaceWord
  cases g with
  | true => exact Or.inl ⟨rfl, by simp⟩
  | false =>
    cases hw : lookup? lex.bareWords w with
    | none => exact Or.inl ⟨rfl, fun _ => rfl⟩
    | some glyph =>
      obtain ⟨p, hp, rfl⟩ := Option.map_eq_some_iff.mp hw
      obtain ⟨c, hc, hgreek⟩ := (h.word p (List.mem_of_find?_eq_some hp)).2
      exact Or.inr ⟨rfl, c, by simpa using hc, hgreek⟩

/-- A word to replace has two letters at least. -/
theorem Regular.lookup?_short (h : lex.Regular) (hw : w.length < 2) :
    lookup? lex.bareWords w = none := by
  rw [lookup?, Option.map_eq_none_iff, List.find?_eq_none]
  intro p hp hword
  have hlong := (h.word p hp).1
  rw [beq_iff_eq.mp hword] at hlong
  omega

theorem Regular.replaceWord_nil (h : lex.Regular) (g : Bool) : lex.replaceWord g [] = [] := by
  have hnone : lookup? lex.bareWords [] = none := h.lookup?_short (by simp)
  cases g <;> simp [replaceWord, hnone]

/-- The words of `t` replaced: `t` stands at position `i` behind `depth` open braces, right after a
backslash if `slash` says so. -/
def renamedFrom (lex : Lexicon) (skip : Option (Nat × Nat)) (i depth : Nat) (slash : Bool)
    (t : Text) : Text :=
  lex.replaceWordsFrom skip [] false (if slash then some '\\' else none) depth i t

theorem replaceWords_eq (lex : Lexicon) (skip : Option (Nat × Nat)) (t : Text) :
    lex.replaceWords skip t = lex.renamedFrom skip 0 0 false t := rfl

namespace Regular

variable (h : lex.Regular)

include h

theorem replaceWordsFrom_eq :
    lex.replaceWordsFrom skip [] g prev d i t = lex.renamedFrom skip i d (prev == some '\\') t := by
  unfold renamedFrom
  cases t with
  | nil => simp [replaceWordsFrom, h.replaceWord_nil]
  | cons c t => cases hp : prev == some '\\' <;> simp [replaceWordsFrom, h.replaceWord_nil, hp]

theorem renamedFrom_nil : lex.renamedFrom skip i d s [] = [] := by
  simp [renamedFrom, replaceWordsFrom, h.replaceWord_nil]

theorem renamedFrom_char (hc : isLatin c = false) : lex.renamedFrom skip i d s (c :: t) =
    c :: lex.renamedFrom skip (i + 1) (deeper d c) (c == '\\') t := by
  have hnext : lex.renamedFrom skip (i + 1) (deeper d c) (c == '\\') t =
      lex.replaceWordsFrom skip [] false (some c) (deeper d c) (i + 1) t := by
    rw [h.replaceWordsFrom_eq]
    rfl
  rw [hnext]
  simp [renamedFrom, replaceWordsFrom, h.replaceWord_nil, hc, deeper]

/-- Once a run is begun, it is read to its end. -/
theorem replaceWordsFrom_run {v : Text} (hv : v ≠ []) (hprev : prev ≠ some '\\')
    (hw : ∀ c ∈ w, isLatin c = true) (hstop : Stops isLatin t) :
    lex.replaceWordsFrom skip v g prev d i (w ++ t) =
      lex.replaceWord g (v.reverse ++ w) ++ lex.renamedFrom skip (i + w.length) d false t := by
  induction w generalizing v prev i with
  | nil =>
    have hslash : (prev == some '\\') = false := beq_eq_false_iff_ne.mpr hprev
    rw [List.nil_append, List.append_nil, List.length_nil, Nat.add_zero]
    cases t with
    | nil => simp [replaceWordsFrom, h.renamedFrom_nil]
    | cons c t =>
      have hc : isLatin c = false := hstop c rfl
      rw [← hslash, ← h.replaceWordsFrom_eq (g := false)]
      simp [replaceWordsFrom, h.replaceWord_nil, hc]
  | cons c w ih =>
    obtain ⟨hc, hw⟩ := List.forall_mem_cons.mp hw
    have hbegun : v.isEmpty = false := by simpa using hv
    have hslash : some c ≠ some '\\' := by simpa using ne_backslash_of_isLatin hc
    rw [List.cons_append, replaceWordsFrom]
    simp only [hc, if_true, hbegun, Bool.false_eq_true, if_false]
    rw [ih (by simp) hslash hw, List.reverse_cons, List.append_assoc, List.singleton_append,
      List.length_cons, Nat.add_assoc, Nat.add_comm 1]

theorem renamedFrom_word (hne : w ≠ []) (hw : ∀ c ∈ w, isLatin c = true)
    (hstop : Stops isLatin t) :
    lex.renamedFrom skip i d s (w ++ t) =
      lex.replaceWord (decide (0 < d) || s || inSpan skip i) w ++
        lex.renamedFrom skip (i + w.length) d false t := by
  obtain ⟨c, w, rfl⟩ := List.exists_cons_of_ne_nil hne
  obtain ⟨hc, hw⟩ := List.forall_mem_cons.mp hw
  have hslash : some c ≠ some '\\' := by simpa using ne_backslash_of_isLatin hc
  have hguard : ((if s then some '\\' else none : Option Char) == some '\\') = s := by
    cases s <;> rfl
  rw [renamedFrom, List.cons_append, replaceWordsFrom]
  simp only [hc, if_true, List.isEmpty_nil, hguard]
  rw [h.replaceWordsFrom_run (by simp) hslash hw hstop, List.length_cons, Nat.add_assoc,
    Nat.add_comm 1]
  rfl

theorem stops_renamedFrom (ht : Stops isLatin t) :
    Stops isLatin (lex.renamedFrom skip i d s t) := by
  cases t with
  | nil => rwa [h.renamedFrom_nil]
  | cons c t =>
    have hc : isLatin c = false := ht c rfl
    rw [h.renamedFrom_char hc]
    simpa [Stops] using hc

end Regular

theorem ne_of_isGreek {d : Char} (hc : isGreek c = true) (hd : isGreek d = false) : c ≠ d := by
  rintro rfl
  simp [hc] at hd

theorem deeper_of_isGreek (hc : isGreek c = true) : deeper d c = d := by
  rw [deeper, if_neg (ne_of_isGreek hc (by decide)), if_neg (ne_of_isGreek hc (by decide))]

/-! ### Texts without words -/

/-- Every run that is not protected is no word to replace. -/
inductive WordFree (lex : Lexicon) : Nat → Bool → Text → Prop
  | nil {depth : Nat} {slash : Bool} : WordFree lex depth slash []
  | char {depth : Nat} {slash : Bool} {c : Char} {t : Text} (hc : isLatin c = false)
      (h : WordFree lex (deeper depth c) (c == '\\') t) : WordFree lex depth slash (c :: t)
  | word {depth : Nat} {slash : Bool} {w t : Text} (hne : w ≠ []) (hw : ∀ c ∈ w, isLatin c = true)
      (hstop : Stops isLatin t)
      (hfree : depth = 0 → slash = false → lookup? lex.bareWords w = none)
      (h : WordFree lex depth false t) : WordFree lex depth slash (w ++ t)

namespace Regular

variable (h : lex.Regular)

include h

theorem renamedFrom_of_wordFree (ht : lex.WordFree d s t) : lex.renamedFrom skip i d s t = t := by
  induction ht generalizing i with
  | nil => exact h.renamedFrom_nil
  | char hc _ ih => rw [h.renamedFrom_char hc, ih]
  | @word depth slash w t hne hw hstop hfree _ ih =>
    rw [h.renamedFrom_word hne hw hstop, ih]
    congr 1
    rcases h.replaceWord_cases (decide (0 < depth) || slash || inSpan skip i) w with
      ⟨hkept, -⟩ | ⟨hguard, -⟩
    · exact hkept
    · simp only [Bool.or_eq_false_iff, decide_eq_false_iff_not, Nat.not_lt, Nat.le_zero] at hguard
      simp [replaceWord, hfree hguard.1.1 hguard.1.2]

/-- Outside the span every word is replaced, and nothing becomes a word. -/
theorem wordFree_renamedFrom (hskip : ∀ j, i ≤ j → inSpan skip j = false) :
    lex.WordFree d s (lex.renamedFrom skip i d s t) := by
  induction t.runs generalizing i d s with
  | nil =>
    rw [h.renamedFrom_nil]
    exact .nil
  | char hc _ ih =>
    rw [h.renamedFrom_char hc]
    exact .char hc (ih fun j hj => hskip j (Nat.le_of_succ_le hj))
  | @word w t hne hw hstop _ ih =>
    rw [h.renamedFrom_word hne hw hstop, hskip i (Nat.le_refl i), Bool.or_false]
    have hrest : lex.WordFree d false (lex.renamedFrom skip (i + w.length) d false t) :=
      ih fun j hj => hskip j (Nat.le_trans (Nat.le_add_right i w.length) hj)
    rcases h.replaceWord_cases (decide (0 < d) || s) w with ⟨hkept, hfree⟩ | ⟨-, c, hc, hgreek⟩
    · rw [hkept]
      refine .word hne hw (h.stops_renamedFrom hstop) (fun hd hs => hfree ?_) hrest
      simp [hd, hs]
    · have hslash : (c == '\\') = false :=
        beq_eq_false_iff_ne.mpr (ne_of_isGreek hgreek (by decide))
      rw [hc]
      refine .char (isLatin_of_isGreek hgreek) ?_
      rwa [deeper_of_isGreek hgreek, hslash]

/-- The letters right behind a backslash stay. -/
theorem run_renamedFrom :
    (lex.renamedFrom skip i d true t).takeWhile isLatin = t.takeWhile isLatin := by
  cases t.runs with
  | nil => rw [h.renamedFrom_nil]
  | char hc => rw [h.renamedFrom_char hc, List.takeWhile_cons_of_neg (by simp [hc]),
      List.takeWhile_cons_of_neg (by simp [hc])]
  | @word w t hne hw hstop =>
    have hkept : lex.replaceWord (decide (0 < d) || true || inSpan skip i) w = w := by
      simp [replaceWord]
    rw [h.renamedFrom_word hne hw hstop, hkept, Text.takeWhile_append_stop hw hstop,
      Text.takeWhile_append_stop hw (h.stops_renamedFrom hstop)]

/-- No key goes and none comes up. -/
theorem keyFree_renamedFrom : lex.KeyFree s (lex.renamedFrom skip i d s t) ↔ lex.KeyFree s t := by
  induction t.runs generalizing i d s with
  | nil => rw [h.renamedFrom_nil]
  | @char c t hc _ ih =>
    rw [h.renamedFrom_char hc, KeyFree, KeyFree, ih]
    refine and_congr_left fun _ => or_congr_right ?_
    by_cases hslash : c = '\\'
    · subst hslash
      rw [beq_self_eq_true, h.longest?_congr h.run_renamedFrom]
    · have hhead : ∀ u : Text, (c :: u).head? ≠ some '\\' := fun u => by simpa using hslash
      rw [h.longest?_of_head (hhead _), h.longest?_of_head (hhead _)]
  | @word w t hne hw hstop _ ih =>
    have hfree : ∀ {u : Text}, lex.KeyFree s (w ++ u) ↔ lex.KeyFree false u :=
      h.keyFree_append hne fun hin => ne_backslash_of_isLatin (hw _ hin) rfl
    rw [h.renamedFrom_word hne hw hstop, hfree]
    rcases h.replaceWord_cases (decide (0 < d) || s || inSpan skip i) w with
      ⟨hkept, -⟩ | ⟨-, c, hc, hgreek⟩
    · rw [hkept, hfree, ih]
    · have hslash : '\\' ∉ [c] := by simpa using Ne.symm (ne_of_isGreek hgreek (by decide))
      rw [hc, h.keyFree_append (by simp) hslash, ih]

/-- A property of characters that Greek letters have stays with a text. -/
theorem forall_mem_renamedFrom {p : Char → Prop} (hp : ∀ c, isGreek c = true → p c)
    (ht : ∀ c ∈ t, p c) : ∀ c ∈ lex.renamedFrom skip i d s t, p c := by
  induction t.runs generalizing i d s with
  | nil => simp [h.renamedFrom_nil]
  | char hc _ ih =>
    obtain ⟨hfirst, ht⟩ := List.forall_mem_cons.mp ht
    rw [h.renamedFrom_char hc]
    exact List.forall_mem_cons.mpr ⟨hfirst, ih ht⟩
  | @word w t hne hw hstop _ ih =>
    obtain ⟨hword, ht⟩ := List.forall_mem_append.mp ht
    rw [h.renamedFrom_word hne hw hstop]
    refine List.forall_mem_append.mpr ⟨?_, ih ht⟩
    rcases h.replaceWord_cases (decide (0 < d) || s || inSpan skip i) w with
      ⟨hkept, -⟩ | ⟨-, c, hc, hgreek⟩
    · rwa [hkept]
    · rw [hc]
      exact List.forall_mem_singleton.mpr (hp c hgreek)

theorem count_renamedFrom :
    (lex.renamedFrom skip i d s t).count '\\' = t.count '\\' := by
  induction t.runs generalizing i d s with
  | nil => rw [h.renamedFrom_nil]
  | char hc _ ih => rw [h.renamedFrom_char hc, List.count_cons, List.count_cons, ih]
  | @word w t hne hw hstop _ ih =>
    rw [h.renamedFrom_word hne hw hstop, List.count_append, List.count_append, ih]
    congr 1
    rcases h.replaceWord_cases (decide (0 < d) || s || inSpan skip i) w with
      ⟨hkept, -⟩ | ⟨-, c, hc, hgreek⟩
    · rw [hkept]
    · have hw : w.count '\\' = 0 :=
        List.count_eq_zero.mpr fun hin => ne_backslash_of_isLatin (hw _ hin) rfl
      have hslash := ne_of_isGreek hgreek (show isGreek '\\' = false by decide)
      rw [hc, hw, List.count_singleton, if_neg (by simpa using hslash)]

end Regular

end Lexicon

end Formulary
