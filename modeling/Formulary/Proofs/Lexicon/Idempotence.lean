import Formulary.Proofs.Lexicon.Sign
import Formulary.Proofs.Lexicon.Word

/-! # The name before an equals sign

The Latin letters that an assignment starts with are not replaced. Replacing the words
behind them moves no bracket and no equals sign, so the same letters are found again,
and there is nothing more to replace.
-/

namespace Formulary

open Text (Stops)

variable {t : Text} {c : Char} {i : Nat}

namespace Assignment

/-- The span of a name is that of the letters behind the first blanks, if there is a sign. -/
theorem nameSpan?_eq {blanks name rest : Text} (hblanks : ∀ c ∈ blanks, Text.isBlank c = true)
    (hname : ∀ c ∈ name, isLatin c = true) (hne : name ≠ []) (hstop : Stops isLatin rest) :
    nameSpan? (blanks ++ (name ++ rest)) =
      if (find? (blanks ++ (name ++ rest))).isSome then
        some (blanks.length, blanks.length + name.length) else none := by
  unfold nameSpan?
  cases hfind : find? (blanks ++ (name ++ rest)) with
  | none => rfl
  | some n =>
    have hfront : '=' ∉ blanks ++ name := by
      intro hin
      rcases List.mem_append.mp hin with hin | hin
      · exact (isQuiet_of_isBlank (hblanks _ hin)).2.2.1 rfl
      · exact (isQuiet_of_isLatin (hname _ hin)).2.2.1 rfl
    rw [← List.append_assoc] at hfind
    obtain ⟨l, r, rfl, rfl⟩ := exists_of_find? hfind hfront
    have htake : (blanks ++ (name ++ (l ++ '=' :: r))).take (blanks ++ name ++ l).length =
        blanks ++ (name ++ l) := by
      have hsplit : blanks ++ (name ++ (l ++ '=' :: r)) = blanks ++ name ++ l ++ '=' :: r := by simp
      rw [hsplit, List.take_left, List.append_assoc]
    have hafter : Stops isLatin l := by
      cases l with
      | nil => simp [Stops]
      | cons c l => simpa [Stops] using hstop
    have hletter : Stops Text.isBlank (name ++ l) := by
      obtain ⟨c, name, rfl⟩ := List.exists_cons_of_ne_nil hne
      simpa [Stops] using isBlank_of_isLatin (hname c List.mem_cons_self)
    have hpos : name.length ≠ 0 := fun h => hne (List.length_eq_zero_iff.mp h)
    simp only [htake, Text.takeWhile_append_stop hblanks hletter, List.drop_left,
      Text.takeWhile_append_stop hname hafter]
    simp [hpos]

end Assignment

namespace Lexicon

variable {lex : Lexicon} {d : Nat} {s : Bool} {skip : Option (Nat × Nat)}

open Assignment

/-- Replacing words keeps the signs. -/
theorem Regular.sameSigns_renamedFrom (h : lex.Regular) :
    SameSigns (lex.renamedFrom skip i d s t) t := by
  induction t.runs generalizing i d s with
  | nil =>
    rw [h.renamedFrom_nil]
    exact .refl []
  | char hc _ ih =>
    rw [h.renamedFrom_char hc]
    exact ih.cons
  | @word w t hne hw hstop _ ih =>
    have hword : ∀ c ∈ w, IsQuiet c := fun c hc => isQuiet_of_isLatin (hw c hc)
    rw [h.renamedFrom_word hne hw hstop]
    rcases h.replaceWord_cases (decide (0 < d) || s || inSpan skip i) w with
      ⟨hkept, -⟩ | ⟨-, g, hg, hgreek⟩
    · rw [hkept]
      exact ih.append_left w
    · have hglyph : ∀ c ∈ [g], IsQuiet c :=
        List.forall_mem_singleton.mpr (isQuiet_of_isGreek hgreek)
      rw [hg]
      exact sameSigns_quiet (by simp) hne hglyph hword ih

/-- Blanks in front are copied. -/
theorem Regular.renamedFrom_blanks (h : lex.Regular) {blanks : Text}
    (hblanks : ∀ c ∈ blanks, Text.isBlank c = true) :
    lex.renamedFrom skip i d false (blanks ++ t) =
      blanks ++ lex.renamedFrom skip (i + blanks.length) d false t := by
  induction blanks generalizing i with
  | nil => rfl
  | cons c blanks ih =>
    obtain ⟨hc, hblanks⟩ := List.forall_mem_cons.mp hblanks
    have hne : ∀ e, Text.isBlank e = false → c ≠ e := by
      rintro e he rfl
      simp [he] at hc
    have hletter : isLatin c = false := by
      rw [Bool.eq_false_iff]
      intro hletter
      simp [isBlank_of_isLatin hletter] at hc
    have hdeeper : deeper d c = d := by
      rw [deeper, if_neg (hne _ (by decide)), if_neg (hne _ (by decide))]
    rw [List.cons_append, h.renamedFrom_char hletter, hdeeper,
      beq_eq_false_iff_ne.mpr (hne _ (by decide)), ih hblanks, List.length_cons, Nat.add_assoc,
      Nat.add_comm 1, List.cons_append]

/-- What a span of a name is one of. -/
theorem exists_of_nameSpan? {span : Nat × Nat} (h : nameSpan? t = some span) :
    ∃ blanks name rest, t = blanks ++ (name ++ rest) ∧ (∀ c ∈ blanks, Text.isBlank c = true) ∧
      name ≠ [] ∧ (∀ c ∈ name, isLatin c = true) ∧ Stops isLatin rest ∧
      span = (blanks.length, blanks.length + name.length) := by
  unfold nameSpan? at h
  split at h
  case h_1 => simp at h
  case h_2 n hfind =>
    obtain ⟨l, r, rfl, rfl⟩ := exists_of_findFrom hfind
    rw [Nat.zero_add, List.take_left] at h
    dsimp only at h
    generalize hblanks : l.takeWhile Text.isBlank = blanks at h
    have hfront : l = blanks ++ l.dropWhile Text.isBlank := by
      rw [← hblanks, List.takeWhile_append_dropWhile]
    have hdrop : l.drop blanks.length = l.dropWhile Text.isBlank :=
      (congrArg (List.drop blanks.length) hfront).trans List.drop_left
    rw [hdrop] at h
    generalize hletters : (l.dropWhile Text.isBlank).takeWhile isLatin = name at h
    have hl : l = blanks ++ (name ++ (l.dropWhile Text.isBlank).dropWhile isLatin) := by
      rw [← hletters, List.takeWhile_append_dropWhile, ← hfront]
    have hstop := Text.stops_dropWhile isLatin (l.dropWhile Text.isBlank)
    generalize (l.dropWhile Text.isBlank).dropWhile isLatin = l' at hl hstop
    split at h
    case isTrue => simp at h
    case isFalse hlength =>
      obtain rfl := Option.some.inj h
      refine ⟨blanks, name, l' ++ '=' :: r, by rw [hl]; simp, ?_, ?_, ?_, ?_, rfl⟩
      · exact fun c hc => List.mem_takeWhile_imp (hblanks ▸ hc)
      · rintro rfl
        simp at hlength
      · exact fun c hc => List.mem_takeWhile_imp (hletters ▸ hc)
      · cases l' with
        | nil => simp [Stops, isLatin]
        | cons c l' => simpa [Stops] using hstop

/-- Letters in the span stay, whatever becomes of the words behind them. -/
theorem Regular.replaceWords_named (h : lex.Regular) {blanks name rest : Text}
    (hblanks : ∀ c ∈ blanks, Text.isBlank c = true) (hne : name ≠ [])
    (hname : ∀ c ∈ name, isLatin c = true) (hstop : Stops isLatin rest)
    (hskip : skip = some (blanks.length, blanks.length + name.length)) :
    lex.replaceWords skip (blanks ++ (name ++ rest)) =
      blanks ++ (name ++ lex.renamedFrom skip (blanks.length + name.length) 0 false rest) := by
  have hinside : inSpan skip blanks.length = true := by
    have := List.length_pos_iff.mpr hne
    simp [hskip, inSpan, this]
  rw [replaceWords_eq, h.renamedFrom_blanks hblanks, Nat.zero_add,
    h.renamedFrom_word hne hname hstop, hinside, Bool.or_true]
  rfl

/-- Every word but the name before the sign is replaced, and the name is found again. -/
theorem Regular.replaceWords_nameSpan (h : lex.Regular) (t : Text) :
    lex.WordFree 0 false (lex.replaceWords (nameSpan? t) t) ∨
      ∃ blanks name rest, (∀ c ∈ blanks, Text.isBlank c = true) ∧ name ≠ [] ∧
        (∀ c ∈ name, isLatin c = true) ∧ Stops isLatin rest ∧ lex.WordFree 0 false rest ∧
        lex.replaceWords (nameSpan? t) t = blanks ++ (name ++ rest) ∧
        nameSpan? (blanks ++ (name ++ rest)) =
          some (blanks.length, blanks.length + name.length) := by
  cases hspan : nameSpan? t with
  | none => exact Or.inl (h.wordFree_renamedFrom fun _ _ => rfl)
  | some span =>
    obtain ⟨blanks, name, rest, rfl, hblanks, hne, hname, hstop, rfl⟩ := exists_of_nameSpan? hspan
    generalize hskip : some (blanks.length, blanks.length + name.length) = skip at hspan ⊢
    have hbehind : ∀ j, blanks.length + name.length ≤ j → inSpan skip j = false := by
      intro j hj
      simp [← hskip, inSpan, hj]
    have hout := h.replaceWords_named hblanks hne hname hstop hskip.symm
    refine Or.inr ⟨blanks, name, _, hblanks, hne, hname, h.stops_renamedFrom hstop,
      h.wordFree_renamedFrom hbehind, hout, ?_⟩
    have hsign : (find? (blanks ++ (name ++ rest))).isSome = true := by
      by_contra hno
      rw [nameSpan?_eq hblanks hname hne hstop, if_neg hno, ← hskip] at hspan
      simp at hspan
    have hsign' : (find? (blanks ++ (name ++
        lex.renamedFrom skip (blanks.length + name.length) 0 false rest))).isSome = true := by
      rw [← hout, replaceWords_eq, ← hsign]
      exact h.sameSigns_renamedFrom.found none 0 0 0
    rw [nameSpan?_eq hblanks hname hne (h.stops_renamedFrom hstop), if_pos hsign']

end Lexicon

end Formulary

/-! ## Normalizing twice

A text that is normalized has no operator variants, no word to replace, and the same
name before its sign. So a second time nothing changes unless a key has come up, and
then the key is replaced.
-/

namespace Formulary.Lexicon

variable {lex : Lexicon} {t : Text}

theorem normalize_eq (lex : Lexicon) (s : Text) :
    let t := lex.replacedFrom false (s.map plainOperator)
    lex.normalize s = lex.renamedFrom (Assignment.nameSpan? t) 0 0 false t := rfl

theorem plainOperator_plainOperator (c : Char) :
    plainOperator (plainOperator c) = plainOperator c := by
  unfold plainOperator
  split
  · decide
  · split
    · decide
    · simp [*]

theorem map_plainOperator (ht : ∀ c ∈ t, plainOperator c = c) : t.map plainOperator = t :=
  (List.map_congr_left ht).trans (List.map_id t)

/-- A class without operator variants is one of characters that are copied. -/
theorem plainOperator_of_class {p : Char → Bool} {c : Char}
    (hp : ['−', '–', '×', '·'].any p = false) (hc : p c = true) : plainOperator c = c := by
  have hne : ∀ d ∈ ['−', '–', '×', '·'], c ≠ d := by
    rintro d hd rfl
    exact List.any_eq_false.mp hp c hd hc
  simp_all [plainOperator]

namespace Regular

variable (h : lex.Regular)

include h

/-- Without operator variants and keys only words are replaced. -/
theorem normalize_of_keyFree (hplain : ∀ c ∈ t, plainOperator c = c) (hkeys : lex.KeyFree false t) :
    lex.normalize t = lex.replaceWords (Assignment.nameSpan? t) t := by
  rw [normalize, map_plainOperator hplain, replaceBackslash_eq, h.replacedFrom_of_keyFree hkeys]

theorem plain_normalize (s : Text) : ∀ c ∈ lex.normalize s, plainOperator c = c := by
  rw [normalize_eq]
  refine h.forall_mem_renamedFrom (fun _ => plainOperator_of_class (by decide)) ?_
  refine h.plain_replacedFrom fun c hc => ?_
  obtain ⟨c, -, rfl⟩ := List.mem_map.mp hc
  exact plainOperator_plainOperator c

theorem keyFree_normalize (s : Text) :
    lex.KeyFree false (lex.normalize s) ↔ ¬ lex.Joins (s.map plainOperator) := by
  rw [joins_iff, ← h.keyFree_replacedFrom, normalize_eq]
  exact h.keyFree_renamedFrom

theorem replaceWords_replaceWords (t : Text) :
    let u := lex.replaceWords (Assignment.nameSpan? t) t
    lex.replaceWords (Assignment.nameSpan? u) u = u := by
  intro u
  rcases h.replaceWords_nameSpan t with
    hfree | ⟨blanks, name, rest, hblanks, hne, hname, hstop, hfree, hout, hspan⟩
  · exact h.renamedFrom_of_wordFree hfree
  · have hu : u = blanks ++ (name ++ rest) := hout
    rw [hu, hspan, h.replaceWords_named hblanks hne hname hstop rfl,
      h.renamedFrom_of_wordFree hfree]

end Regular

/-- Normalizing a second time changes nothing exactly if no command, replaced, went on with the
letters of an unknown one. -/
theorem normalize_normalize_iff (s : Text) :
    builtin.normalize (builtin.normalize s) = builtin.normalize s ↔
      ¬ builtin.Joins (s.map plainOperator) := by
  have h := builtin_regular
  rw [← h.keyFree_normalize]
  constructor
  · intro htwice
    -- replacing a key would take a backslash away
    refine (h.count_replacedFrom false _).2 ?_
    have hcount : (builtin.normalize (builtin.normalize s)).count '\\' =
        (builtin.replacedFrom false (builtin.normalize s)).count '\\' := by
      have htwice := normalize_eq builtin (builtin.normalize s)
      rw [map_plainOperator (h.plain_normalize s)] at htwice
      rw [htwice]
      exact h.count_renamedFrom
    rw [← hcount, htwice]
  · intro hkeys
    rw [h.normalize_of_keyFree (h.plain_normalize s) hkeys]
    exact h.replaceWords_replaceWords _

/-- `\arc` is no command, but `\sin` behind it makes it one. -/
theorem normalize_arc_sin :
    builtin.normalize (builtin.normalize (text "\\arc\\sin")) ≠
      builtin.normalize (text "\\arc\\sin") := by
  decide +kernel

end Formulary.Lexicon
