import Formulary.Proofs.Lexicon.Idempotence

/-! # Parts of a text without words

A text is cut between its runs of letters. Then it is without words exactly if both
parts are, the second one behind the braces that the first leaves open.
-/

namespace Formulary.Lexicon

open Text (Stops)

variable {lex : Lexicon} {d : Nat} {s : Bool} {c : Char} {t u w x y : Text}

/-! ### Open braces -/

/-- How many braces are open behind a text. -/
def depthAfter (depth : Nat) (t : Text) : Nat := t.foldl deeper depth

@[simp] theorem depthAfter_nil : depthAfter d [] = d := rfl

@[simp] theorem depthAfter_cons : depthAfter d (c :: t) = depthAfter (deeper d c) t := rfl

@[simp] theorem depthAfter_append : depthAfter d (t ++ u) = depthAfter (depthAfter d t) u :=
  List.foldl_append

/-- A class without braces opens and closes none. -/
theorem depthAfter_of_class {p : Char → Bool} (hopen : p '\x7b' = false) (hclose : p '\x7d' = false)
    (ht : ∀ c ∈ t, p c = true) : depthAfter d t = d := by
  induction t with
  | nil => rfl
  | cons c t ih =>
    obtain ⟨hc, ht⟩ := List.forall_mem_cons.mp ht
    have hne : ∀ e, p e = false → c ≠ e := by
      rintro e he rfl
      simp [he] at hc
    rw [depthAfter_cons, deeper, if_neg (hne _ hopen), if_neg (hne _ hclose), ih ht]

theorem depthAfter_of_blank (ht : ∀ c ∈ t, Text.isBlank c = true) : depthAfter d t = d :=
  depthAfter_of_class (by decide) (by decide) ht

theorem depthAfter_of_latin (ht : ∀ c ∈ t, isLatin c = true) : depthAfter d t = d :=
  depthAfter_of_class (by decide) (by decide) ht

/-! ### The first run -/

theorem wordFree_cons (hc : isLatin c = false) :
    lex.WordFree d s (c :: t) ↔ lex.WordFree (deeper d c) (c == '\\') t := by
  refine ⟨fun h => ?_, .char hc⟩
  generalize hu : c :: t = u at h
  cases h with
  | nil => simp at hu
  | char _ h =>
    obtain ⟨rfl, rfl⟩ := List.cons.inj hu
    exact h
  | word hne hw =>
    obtain ⟨e, w, rfl⟩ := List.exists_cons_of_ne_nil hne
    obtain rfl : c = e := (List.cons.inj hu).1
    simp [hw c List.mem_cons_self] at hc

theorem wordFree_word (hne : w ≠ []) (hw : ∀ c ∈ w, isLatin c = true) (hstop : Stops isLatin t) :
    lex.WordFree d s (w ++ t) ↔
      (d = 0 → s = false → lookup? lex.bareWords w = none) ∧ lex.WordFree d false t := by
  refine ⟨fun h => ?_, fun ⟨hfree, h⟩ => .word hne hw hstop hfree h⟩
  generalize hu : w ++ t = u at h
  cases h with
  | nil => simp_all
  | char hc =>
    obtain ⟨e, w, rfl⟩ := List.exists_cons_of_ne_nil hne
    obtain rfl : e = _ := (List.cons.inj hu).1
    simp [hw e List.mem_cons_self] at hc
  | word _ hw' hstop' hfree h =>
    have hrun := congrArg (List.takeWhile isLatin) hu
    rw [Text.takeWhile_append_stop hw hstop, Text.takeWhile_append_stop hw' hstop'] at hrun
    subst hrun
    obtain rfl := List.append_cancel_left hu
    exact ⟨hfree, h⟩

/-! ### Two parts -/

/-- No run of letters goes from one text into the other. -/
def Severed (x y : Text) : Prop := ∀ c ∈ x.getLast?, isLatin c = true → Stops isLatin y

theorem severed_of_stops (h : Stops isLatin y) : Severed x y := fun _ _ _ => h

theorem severed_of_last (h : ∀ c ∈ x, isLatin c = false) : Severed x y := by
  intro c hc hletter
  simp [h c (List.mem_of_mem_getLast? hc)] at hletter

theorem Severed.of_append (h : Severed (u ++ x) y) : Severed x y := by
  intro c hc
  refine h c ?_
  rw [List.getLast?_append, Option.mem_def.mp hc]
  rfl

theorem wordFree_append_iff (hslash : '\\' ∉ x) (hxy : Severed x y) :
    lex.WordFree d false (x ++ y) ↔
      lex.WordFree d false x ∧ lex.WordFree (depthAfter d x) false y := by
  induction x.runs generalizing d with
  | nil => exact ⟨fun h => ⟨.nil, h⟩, And.right⟩
  | @char c x hc _ ih =>
    rw [List.mem_cons, not_or] at hslash
    have hprev : (c == '\\') = false := beq_eq_false_iff_ne.mpr (Ne.symm hslash.1)
    rw [List.cons_append, wordFree_cons hc, wordFree_cons hc, hprev,
      ih hslash.2 (.of_append (u := [c]) hxy)]
    rfl
  | @word w x hne hw hstop _ ih =>
    rw [List.mem_append, not_or] at hslash
    have hstop' : Stops isLatin (x ++ y) := by
      cases x with
      | nil =>
        obtain ⟨c, hc⟩ := List.getLast?_isSome.mpr hne |> Option.isSome_iff_exists.mp
        exact hxy c (by simpa using hc) (hw c (List.mem_of_mem_getLast? hc))
      | cons c x => simpa [Stops] using hstop
    rw [List.append_assoc, wordFree_word hne hw hstop', wordFree_word hne hw hstop,
      ih hslash.2 hxy.of_append, and_assoc, depthAfter_append, depthAfter_of_latin hw]

/-! ### Texts that hold no word -/

theorem wordFree_of_not_latin (ht : ∀ c ∈ t, isLatin c = false) : lex.WordFree d s t := by
  induction t generalizing d s with
  | nil => exact .nil
  | cons c t ih =>
    obtain ⟨hc, ht⟩ := List.forall_mem_cons.mp ht
    exact .char hc (ih ht)

/-- Inside a brace no word is replaced, and none is where there are no letters. -/
theorem wordFree_of_inside (hd : 0 < d) (ht : '\x7d' ∉ t) (hu : ∀ c ∈ u, isLatin c = false) :
    lex.WordFree d s (t ++ u) := by
  induction t.runs generalizing d s with
  | nil => exact wordFree_of_not_latin hu
  | @char c t hc _ ih =>
    rw [List.mem_cons, not_or] at ht
    have hdeeper : 0 < deeper d c := by
      rw [deeper, if_neg (Ne.symm ht.1)]
      split <;> omega
    exact .char hc (ih hdeeper ht.2)
  | @word w t hne hw hstop _ ih =>
    rw [List.mem_append, not_or] at ht
    have hstop' : Stops isLatin (t ++ u) := by
      cases t with
      | nil => exact fun c hc => hu c (List.mem_of_mem_head? hc)
      | cons c t => simpa [Stops] using hstop
    rw [List.append_assoc]
    exact .word hne hw hstop' (fun h => absurd h hd.ne') (ih hd ht.2)

/-- A letter alone is no word. -/
theorem Regular.wordFree_letter (h : lex.Regular) (hc : isLetter c = true) (hstop : Stops isLatin t)
    (ht : lex.WordFree d false t) : lex.WordFree d false (c :: t) := by
  have hne := fun e (he : isLetter e = false) => ne_of_isLetter hc he
  by_cases hlatin : isLatin c = true
  · have hword : ∀ e ∈ [c], isLatin e = true := by simpa using hlatin
    have hone : lookup? lex.bareWords [c] = none := h.lookup?_short (by simp)
    exact .word (w := [c]) (by simp) hword hstop (fun _ _ => hone) ht
  · have hdeeper : deeper d c = d := by
      rw [deeper, if_neg (hne _ (by decide)), if_neg (hne _ (by decide))]
    refine .char (by simpa using hlatin) ?_
    rwa [hdeeper, beq_eq_false_iff_ne.mpr (hne _ (by decide))]

/-- Behind an equals sign every word is replaced: the name that stays stands before it. -/
theorem Regular.wordFree_behind_sign (h : lex.Regular)
    (ht : lex.replaceWords (Assignment.nameSpan? t) t = x ++ '=' :: y) (hslash : '\\' ∉ x) :
    lex.WordFree (depthAfter 0 x) false y := by
  have hbehind : ∀ {v : Text}, '\\' ∉ v → lex.WordFree 0 false (v ++ '=' :: y) →
      lex.WordFree (depthAfter 0 v) false y := by
    intro v hv hfree
    rw [wordFree_append_iff hv (severed_of_stops (by simp [Stops, isLatin]))] at hfree
    exact (wordFree_cons (by decide)).mp hfree.2
  rcases h.replaceWords_nameSpan t with
    hfree | ⟨blanks, name, rest, hblanks, -, hname, -, hfree, hout, -⟩
  · exact hbehind hslash (ht ▸ hfree)
  · have hfront : '=' ∉ blanks ++ name := by
      intro hin
      rcases List.mem_append.mp hin with hin | hin
      · exact absurd (hblanks _ hin) (by decide)
      · exact absurd (hname _ hin) (by decide)
    have hsplit : blanks ++ name ++ rest = x ++ '=' :: y := by
      rw [List.append_assoc, ← hout, ht]
    rcases List.append_eq_append_iff.mp hsplit with ⟨v, rfl, rfl⟩ | ⟨v, hx, hy⟩
    · rw [depthAfter_append, depthAfter_append, depthAfter_of_blank hblanks,
        depthAfter_of_latin hname]
      exact hbehind (fun hin => hslash (List.mem_append_right _ hin)) hfree
    · cases v with
      | nil =>
        obtain rfl : '=' :: y = rest := hy
        rw [← List.append_nil x, ← hx, depthAfter_append, depthAfter_of_blank hblanks,
          depthAfter_of_latin hname]
        exact hbehind (v := []) (by simp) hfree
      | cons c v =>
        obtain rfl : '=' = c := (List.cons.inj hy).1
        simp [hx] at hfront

end Formulary.Lexicon
