import Formulary.Proofs.Formula.Span

/-! # Cutting one token

What the tokens that are no calls look like, and where they end: `Cut` gives one
rule for each kind, with what must not follow. The rules look ahead two
characters at most.
-/

namespace Formulary.Formula

open Text (Stops takeWhile_append_stop dropWhile_append_stop)

variable {k : TokenKind} {c : Char} {w after after' rest : Text} {i : Nat}

/-- A character that starts no number, name or bracket and is no blank. -/
structure IsOther (c : Char) : Prop where
  blank : Text.isBlank c = false
  digit : Text.isAsciiDigit c = false
  letter : isLetter c = false
  opening : (c == '(' || c == '[') = false
  closing : (c == ')' || c == ']') = false

/-- The token `c :: w` of kind `k`, cut off before `after`. -/
inductive Cut : TokenKind → Char → Text → Text → Prop
  | space {c : Char} {w after : Text} (hc : Text.isBlank c = true)
      (hw : ∀ b ∈ w, Text.isBlank b = true) (ha : Stops Text.isBlank after) :
      Cut .space c w after
  | number {c : Char} {w after : Text} (hc : startsNumber (c :: w) = true)
      (hw : takeNumber (c = '.') (w ++ after) = (w, after)) : Cut .number c w after
  | subscripted {c : Char} {content after : Text} (n : Nat) (hc : isLetter c = true)
      (hcontent : '}' ∉ content) (ha : Stops isMark after) :
      Cut .atom c (Symbol.subscriptText content ++ marks n) after
  | letter {c : Char} {after : Text} (n : Nat) (hc : isLetter c = true) (ha : Stops isMark after)
      (hopen : n = 0 → ∀ body, after ≠ '_' :: '{' :: body) : Cut .atom c (marks n) after
  | opening {c : Char} {after : Text} (hc : (c == '(' || c == '[') = true) :
      Cut .opening c [] after
  | closing {c : Char} {after : Text} (hc : (c == ')' || c == ']') = true) :
      Cut .closing c [] after
  | other {c : Char} {after : Text} (hc : IsOther c)
      (ha : c = '.' → Stops Text.isAsciiDigit after) : Cut .other c [] after

/-! ### Numbers -/

theorem takeNumber_chars (dotted : Bool) (t : Text) :
    ∀ c ∈ (takeNumber dotted t).1, Text.isAsciiDigit c = true ∨ c = '.' := by
  fun_induction takeNumber dotted t with
  | case1 => simp
  | case2 dotted c rest hc ds after h ih => simp_all
  | case3 dotted c rest hc hdot ds after h ih => simp_all
  | case4 => simp

theorem takeNumber_congr {dotted : Bool} (h : takeNumber dotted (w ++ after) = (w, after))
    (hhead : ∀ d ∈ after'.head?, (Text.isAsciiDigit d = false ∧ d ≠ '.') ∨ d ∈ after.head?) :
    takeNumber dotted (w ++ after') = (w, after') := by
  induction w generalizing dotted with
  | nil =>
    cases after' with
    | nil => rfl
    | cons d rest' =>
      rw [List.nil_append] at h ⊢
      have hd : (Text.isAsciiDigit d = false ∧ d ≠ '.') ∨ ∃ rest, after = d :: rest := by
        simpa [List.head?_eq_some_iff] using hhead d
      rcases hd with ⟨hdigit, hdot⟩ | ⟨rest, rfl⟩
      · simp [takeNumber, hdigit, hdot]
      · unfold takeNumber at h ⊢
        split at h
        · simp at h
        · split at h
          · simp at h
          · simp [*]
  | cons d w ih =>
    rw [List.cons_append] at h ⊢
    unfold takeNumber at h ⊢
    split at h
    case isTrue hd =>
      simp only [Prod.mk.injEq, List.cons.injEq, true_and] at h
      have := ih (Prod.ext h.1 h.2)
      simp [hd, this]
    case isFalse hd =>
      split at h
      case isTrue hp =>
        simp only [Prod.mk.injEq, List.cons.injEq, true_and] at h
        have := ih (Prod.ext h.1 h.2)
        simp [hd, hp, this]
      case isFalse => simp at h

theorem startsNumber_append (hw : takeNumber (c = '.') (w ++ after) = (w, after)) :
    startsNumber (c :: (w ++ after)) = startsNumber (c :: w) := by
  cases w with
  | cons d w => rfl
  | nil =>
    rw [List.nil_append] at hw ⊢
    by_cases hc : c = '.'
    · subst hc
      cases after with
      | nil => rfl
      | cons d after =>
        have hd : Text.isAsciiDigit d = false := by
          rw [Bool.eq_false_iff]
          intro hd
          simp [takeNumber, hd] at hw
        simp [startsNumber, hd]
    · simp [startsNumber, hc]

/-! ### The rules and the function -/

theorem cutToken_nil : cutToken [] i c rest =
    if Text.isBlank c then (.space, c :: rest.takeWhile Text.isBlank, rest.dropWhile Text.isBlank)
    else if startsNumber (c :: rest) then
      (.number, c :: (takeNumber (c = '.') rest).1, (takeNumber (c = '.') rest).2)
    else if isLetter c then
      match rest with
      | '_' :: '{' :: body =>
        match Text.cut? '}' body with
        | none => (.atom, [c], rest)
        | some (content, after) =>
          (.atom, c :: Symbol.subscriptText content ++ after.takeWhile isMark,
            after.dropWhile isMark)
      | _ => (.atom, c :: rest.takeWhile isMark, rest.dropWhile isMark)
    else if c == '(' || c == '[' then (.opening, [c], rest)
    else if c == ')' || c == ']' then (.closing, [c], rest)
    else (.other, [c], rest) := rfl

theorem startsNumber_of_isLetter (hc : isLetter c = true) : startsNumber (c :: rest) = false := by
  have hdot : c ≠ '.' := ne_of_isLetter hc (by decide)
  simp [startsNumber, isAsciiDigit_of_isLetter hc, hdot]

theorem isBlank_of_startsNumber (hc : startsNumber (c :: rest) = true) :
    Text.isBlank c = false := by
  simp only [startsNumber, Bool.or_eq_true, Bool.and_eq_true, beq_iff_eq] at hc
  rcases hc with hc | ⟨rfl, -⟩
  · exact Text.isBlank_of_isAsciiDigit hc
  · decide

theorem cutToken_atom (hc : isLetter c = true) (hrest : ∀ body, rest ≠ '_' :: '{' :: body) :
    cutToken [] i c rest = (.atom, c :: rest.takeWhile isMark, rest.dropWhile isMark) := by
  rw [cutToken_nil, if_neg (by simp [isBlank_of_isLetter hc]),
    if_neg (by simp [startsNumber_of_isLetter hc]), if_pos hc]
  split
  case h_1 body => exact absurd rfl (hrest body)
  case h_2 => rfl

theorem cutToken_subscript {body : Text} (hc : isLetter c = true) :
    cutToken [] i c ('_' :: '{' :: body) =
      match Text.cut? '}' body with
      | none => (.atom, [c], '_' :: '{' :: body)
      | some (content, after) =>
        (.atom, c :: Symbol.subscriptText content ++ after.takeWhile isMark,
          after.dropWhile isMark) := by
  rw [cutToken_nil, if_neg (by simp [isBlank_of_isLetter hc]),
    if_neg (by simp [startsNumber_of_isLetter hc]), if_pos hc]
  rfl

theorem isBlank_of_bracket (hc : (c == '(' || c == '[') = true ∨ (c == ')' || c == ']') = true) :
    Text.isBlank c = false ∧ (∀ rest, startsNumber (c :: rest) = false) ∧ isLetter c = false := by
  simp only [Bool.or_eq_true, beq_iff_eq] at hc
  rcases hc with (rfl | rfl) | (rfl | rfl) <;> exact ⟨by decide, fun _ => rfl, by decide⟩

/-- A token is cut off as its rule says. -/
theorem Cut.cutToken (h : Cut k c w after) : cutToken [] i c (w ++ after) = (k, c :: w, after) := by
  cases h with
  | space hc hw ha =>
    rw [cutToken_nil, if_pos hc, takeWhile_append_stop hw ha, dropWhile_append_stop hw ha]
  | number hc hw =>
    have hs : startsNumber (c :: (w ++ after)) = true := by rw [startsNumber_append hw, hc]
    rw [cutToken_nil, if_neg (by simp [isBlank_of_startsNumber hs]), if_pos hs, hw]
  | @subscripted _ content _ n hc hcontent ha =>
    have ht : Symbol.subscriptText content ++ marks n ++ after =
        '_' :: '{' :: (content ++ '}' :: (marks n ++ after)) := by
      simp [Symbol.subscriptText]
    rw [ht, cutToken_subscript hc, Text.cut?_append hcontent]
    simp only [takeWhile_append_stop (fun _ => isMark_of_mem_marks) ha,
      dropWhile_append_stop (fun _ => isMark_of_mem_marks) ha, List.cons_append]
  | letter n hc ha hopen =>
    rw [cutToken_atom hc, takeWhile_append_stop (fun _ => isMark_of_mem_marks) ha,
      dropWhile_append_stop (fun _ => isMark_of_mem_marks) ha]
    intro body he
    cases n with
    | zero => exact hopen rfl body he
    | succ n => simp [List.replicate_succ] at he
  | opening hc =>
    obtain ⟨hb, hs, hl⟩ := isBlank_of_bracket (Or.inl hc)
    rw [cutToken_nil, if_neg (by simp [hb]), if_neg (by simp [hs]), if_neg (by simp [hl]),
      if_pos hc, List.nil_append]
  | closing hc =>
    obtain ⟨hb, hs, hl⟩ := isBlank_of_bracket (Or.inr hc)
    have ho : (c == '(' || c == '[') = false := by
      simp only [Bool.or_eq_true, beq_iff_eq] at hc
      rcases hc with rfl | rfl <;> decide
    rw [cutToken_nil, if_neg (by simp [hb]), if_neg (by simp [hs]), if_neg (by simp [hl]),
      if_neg (by simp [ho]), if_pos hc, List.nil_append]
  | other hc ha =>
    have hs : startsNumber (c :: after) = false := by
      rw [startsNumber, hc.digit, Bool.false_or, Bool.and_eq_false_iff, beq_eq_false_iff_ne]
      by_cases hdot : c = '.'
      · apply Or.inr
        have hstop := ha hdot
        cases hh : after.head? with
        | none => rfl
        | some d => simp [hstop d (by simp [hh])]
      · exact Or.inl hdot
    rw [cutToken_nil, if_neg (by simp [hc.blank]), if_neg (by simp [hs]),
      if_neg (by simp [hc.letter]), if_neg (by simp [hc.opening]), if_neg (by simp [hc.closing]),
      List.nil_append]

theorem Cut.isOpenTail (h : Cut k c w after) : isOpenTail k (c :: w) after = false := by
  cases h with
  | letter n hc ha hopen =>
    unfold Formula.isOpenTail
    split
    case h_1 ht =>
      have hn : n = 0 := by simpa using (List.cons.inj ht).2
      exact absurd rfl (hopen hn _)
    case h_2 => rfl
  | _ => rfl

/-- A letter is cut off with its subscript and its marks, unless its subscript is never closed. -/
theorem cut_of_letter {t : Text} (hc : isLetter c = true)
    (h : Formula.cutToken [] i c rest = (k, t, after)) :
    (∃ w, t = c :: w ∧ rest = w ++ after ∧ Cut k c w after) ∨
      (k = .atom ∧ t = [c] ∧ after = rest ∧
        ∃ body, rest = '_' :: '{' :: body ∧ Text.cut? '}' body = none) := by
  by_cases hopen : ∃ body, rest = '_' :: '{' :: body
  · obtain ⟨body, rfl⟩ := hopen
    rw [cutToken_subscript hc] at h
    cases hcut : Text.cut? '}' body with
    | none =>
      rw [hcut] at h
      obtain ⟨rfl, rfl, rfl⟩ : _ ∧ _ ∧ _ := by simpa only [Prod.mk.injEq] using h
      exact Or.inr ⟨rfl, rfl, rfl, body, rfl, hcut⟩
    | some p =>
      obtain ⟨content, tail⟩ := p
      rw [hcut] at h
      obtain ⟨rfl, rfl, rfl⟩ : _ ∧ _ ∧ _ := by simpa only [Prod.mk.injEq] using h
      refine Or.inl ⟨_, List.cons_append, ?_, ?_⟩
      · rw [Text.eq_of_cut? hcut]
        simp [Symbol.subscriptText]
      · rw [takeWhile_isMark tail]
        exact .subscripted _ hc (Text.not_mem_of_cut? hcut) (Text.stops_dropWhile _ _)
  · have hrest : ∀ body, rest ≠ '_' :: '{' :: body := fun body he => hopen ⟨body, he⟩
    rw [cutToken_atom hc hrest] at h
    obtain ⟨rfl, rfl, rfl⟩ : _ ∧ _ ∧ _ := by simpa only [Prod.mk.injEq] using h
    refine Or.inl ⟨_, rfl, by simp, ?_⟩
    rw [takeWhile_isMark rest]
    refine .letter _ hc (Text.stops_dropWhile _ _) fun hzero body he => ?_
    have hsplit := List.takeWhile_append_dropWhile (p := isMark) (l := rest)
    rw [List.length_eq_zero_iff.mp hzero, List.nil_append] at hsplit
    exact hrest body (hsplit ▸ he)

/-- Every token that is no call is cut off by a rule, but for a letter whose subscript is never
closed. -/
theorem cut_of_cutToken {t : Text} (h : Formula.cutToken [] i c rest = (k, t, after)) :
    (∃ w, t = c :: w ∧ rest = w ++ after ∧ Cut k c w after) ∨
      (k = .atom ∧ t = [c] ∧ after = rest ∧ isLetter c = true ∧
        ∃ body, rest = '_' :: '{' :: body ∧ Text.cut? '}' body = none) := by
  by_cases hletter : isLetter c = true
  · rcases cut_of_letter hletter h with h | ⟨hk, ht, ha, hbody⟩
    · exact Or.inl h
    · exact Or.inr ⟨hk, ht, ha, hletter, hbody⟩
  · apply Or.inl
    rw [cutToken_nil] at h
    split at h
    case isTrue hb =>
      obtain ⟨rfl, rfl, rfl⟩ : _ ∧ _ ∧ _ := by simpa only [Prod.mk.injEq] using h
      exact ⟨_, rfl, by simp, .space hb (fun _ => List.mem_takeWhile_imp)
        (Text.stops_dropWhile _ _)⟩
    case isFalse hb =>
    split at h
    case isTrue hs =>
      obtain ⟨rfl, rfl, rfl⟩ : _ ∧ _ ∧ _ := by simpa only [Prod.mk.injEq] using h
      have happ := takeNumber_append (decide (c = '.')) rest
      generalize hds : (takeNumber (decide (c = '.')) rest).1 = ds at happ ⊢
      generalize haf : (takeNumber (decide (c = '.')) rest).2 = af at happ ⊢
      have hw : takeNumber (c = '.') (ds ++ af) = (ds, af) := by
        rw [happ]
        exact Prod.ext hds haf
      refine ⟨ds, rfl, happ.symm, .number ?_ hw⟩
      rw [← startsNumber_append hw, happ, hs]
    case isFalse hs =>
    split at h
    case isTrue ho =>
      obtain ⟨rfl, rfl, rfl⟩ : _ ∧ _ ∧ _ := by simpa only [Prod.mk.injEq] using h
      exact ⟨[], rfl, rfl, .opening ho⟩
    case isFalse ho =>
    split at h
    case isTrue hcl =>
      obtain ⟨rfl, rfl, rfl⟩ : _ ∧ _ ∧ _ := by simpa only [Prod.mk.injEq] using h
      exact ⟨[], rfl, rfl, .closing hcl⟩
    case isFalse hcl =>
      obtain ⟨rfl, rfl, rfl⟩ : _ ∧ _ ∧ _ := by simpa only [Prod.mk.injEq] using h
      simp only [startsNumber, Bool.or_eq_true, Bool.and_eq_true, beq_iff_eq, not_or, not_and] at hs
      refine ⟨[], rfl, rfl, .other ⟨by simpa using hb, by simpa using hs.1,
        by simpa using hletter, by simpa using ho, by simpa using hcl⟩ fun hdot d hd => ?_⟩
      have := hs.2 hdot
      rw [Option.mem_def.mp hd] at this
      simpa using this

end Formulary.Formula
