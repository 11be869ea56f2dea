import Formulary.Bracket
import Formulary.Proofs.Formula.WrittenOut

/-! # Balanced formulas

Only brackets move the stack, so writing products out leaves a formula balanced. In
a balanced formula every subscript is closed, and each stray token is a single
character.
-/

namespace Formulary.Bracket

variable {t u : Text} {c : Char} {stack stack' : List Char}

/-- The brackets left open after a text, if each closing one in it fits. -/
def openAfter? (stack : List Char) : Text → Option (List Char)
  | [] => some stack
  | c :: rest =>
    if isOpening c then openAfter? (c :: stack) rest
    else if isClosing c then
      match stack with
      | [] => none
      | o :: outer => if closing? o == some c then openAfter? outer rest else none
    else openAfter? stack rest

theorem openAfter?_append :
    openAfter? stack (t ++ u) = (openAfter? stack t).bind (openAfter? · u) := by
  fun_induction openAfter? stack t with
  | case1 => rfl
  | case2 stack c rest hc ih => simp [openAfter?, hc, ih]
  | case3 c rest hc hclose => simp [openAfter?, hc, hclose]
  | case4 c rest hc hclose o outer hfits ih => simp [openAfter?, hc, hclose, hfits, ih]
  | case5 c rest hc hclose o outer hfits => simp [openAfter?, hc, hclose, hfits]
  | case6 stack c rest hc hclose ih => simp [openAfter?, hc, hclose, ih]

theorem faultFrom_eq_none {marks : List (Char × Nat)} {i : Nat} :
    faultFrom marks i t = none ↔ openAfter? (marks.map (·.1)) t = some [] := by
  induction t generalizing marks i with
  | nil => cases marks <;> simp [faultFrom, openAfter?]
  | cons c t ih =>
    unfold faultFrom openAfter?
    split
    · exact ih
    · split
      · cases marks with
        | nil => simp
        | cons o outer =>
          simp only [List.map_cons]
          split
          · exact ih
          · simp
      · exact ih

theorem isBalanced_iff : isBalanced t = true ↔ openAfter? [] t = some [] := by
  rw [isBalanced, Option.isNone_iff_eq_none]
  exact faultFrom_eq_none

/-- Other characters leave the stack as it is. -/
theorem openAfter?_of_plain (h : ∀ c ∈ t, isOpening c = false ∧ isClosing c = false) :
    openAfter? stack t = some stack := by
  induction t with
  | nil => rfl
  | cons c t ih =>
    obtain ⟨hc, ht⟩ := List.forall_mem_cons.mp h
    simp [openAfter?, hc, ih ht]

/-- A brace stays open where no brace closes. -/
theorem mem_openAfter? (hbrace : '\x7b' ∈ stack) (ht : '\x7d' ∉ t)
    (h : openAfter? stack t = some stack') : '\x7b' ∈ stack' := by
  fun_induction openAfter? stack t with
  | case1 =>
    obtain rfl := Option.some.inj h
    exact hbrace
  | case2 stack c rest hc ih =>
    exact ih (List.mem_cons_of_mem c hbrace) (fun hin => ht (List.mem_cons_of_mem c hin)) h
  | case3 => simp at h
  | case4 c rest hc hclose o outer hfits ih =>
    have hne : o ≠ '\x7b' := by
      rintro rfl
      obtain rfl : '\x7d' = c := by simpa [closing?] using hfits
      exact ht List.mem_cons_self
    refine ih ?_ (fun hin => ht (List.mem_cons_of_mem c hin)) h
    simpa [Ne.symm hne] using hbrace
  | case5 => simp at h
  | case6 stack c rest hc hclose ih =>
    exact ih hbrace (fun hin => ht (List.mem_cons_of_mem c hin)) h

theorem not_isBalanced_of_open (ht : '\x7d' ∉ t) : isBalanced (u ++ '\x7b' :: t) = false := by
  rw [Bool.eq_false_iff, ne_eq, isBalanced_iff, openAfter?_append]
  intro h
  obtain ⟨stack, -, h⟩ := Option.bind_eq_some_iff.mp h
  have hopen : openAfter? ('\x7b' :: stack) t = some [] := h
  exact absurd (mem_openAfter? List.mem_cons_self ht hopen) List.not_mem_nil

end Formulary.Bracket

namespace Formulary.Formula

open Formulary.Bracket (openAfter? isBalanced isBalanced_iff openAfter?_append openAfter?_of_plain)

variable {lex : Lexicon} {functions : List Name} {known : Name → Bool} {ps : List Piece} {t : Text}

theorem not_bracket_of_isBlank {c : Char} (h : Text.isBlank c = true) :
    Bracket.isOpening c = false ∧ Bracket.isClosing c = false := by
  simp only [Bool.eq_false_iff, ne_eq, Bracket.isOpening, Bracket.isClosing, Bool.or_eq_true,
    beq_iff_eq]
  constructor
  · rintro ((rfl | rfl) | rfl) <;> exact absurd h (by decide)
  · rintro ((rfl | rfl) | rfl) <;> exact absurd h (by decide)

/-- What is put between pieces holds no bracket. -/
theorem openAfter?_between {left : Option TokenKind} {blanks : Text} {k : TokenKind}
    {stack : List Char} (hb : ∀ b ∈ blanks, Text.isBlank b = true) :
    openAfter? stack (written (between left blanks k)) = some stack := by
  unfold between
  split
  · have hstar : Bracket.isOpening '*' = false ∧ Bracket.isClosing '*' = false := by decide
    exact openAfter?_of_plain (List.forall_mem_singleton.mpr hstar)
  · rw [written_gap]
    exact openAfter?_of_plain fun c hc => not_bracket_of_isBlank (hb c hc)

theorem openAfter?_spread_cons {left : Option TokenKind} {blanks : Text} {p : Piece}
    {stack : List Char} (hp : p.1 ≠ .space) (hb : ∀ b ∈ blanks, Text.isBlank b = true) :
    openAfter? stack (written (spread left blanks (p :: ps))) =
      openAfter? stack (p.2 ++ written (spread (some p.1) [] ps)) := by
  rw [spread_cons hp, written_append, openAfter?_append, openAfter?_between hb]
  rfl

theorem openAfter?_spread {left : Option TokenKind} {blanks : Text} {stack : List Char}
    (hps : Reads known ps) (hb : ∀ b ∈ blanks, Text.isBlank b = true) :
    openAfter? stack (written (spread left blanks ps)) = openAfter? stack (written ps) := by
  have hnone : ∀ b ∈ ([] : Text), Text.isBlank b = true := by simp
  induction hps generalizing left blanks stack with
  | nil =>
    rw [spread, written_gap, written_nil]
    exact openAfter?_of_plain fun c hc => not_bracket_of_isBlank (hb c hc)
  | call _ _ _ _ ih =>
    rw [openAfter?_spread_cons (by simp) hb, written_cons, openAfter?_append, openAfter?_append]
    exact congrArg _ (funext fun stack => ih hnone)
  | @plain k c w ps hcut hps ih =>
    by_cases hk : k = .space
    · subst hk
      obtain ⟨hw, -, -⟩ := (Reads.plain hcut hps).space
      rw [spread, if_pos rfl, ih hw, written_cons, openAfter?_append,
        openAfter?_of_plain fun c hc => not_bracket_of_isBlank (hw c hc)]
      rfl
    · rw [openAfter?_spread_cons hk hb, written_cons, openAfter?_append, openAfter?_append]
      exact congrArg _ (funext fun stack => ih hnone)
  | tail =>
    rw [openAfter?_spread_cons (by simp) hb, written_cons, openAfter?_append, openAfter?_append]
    refine congrArg _ (funext fun stack => ?_)
    rw [openAfter?_spread_cons (by simp) hnone]
    simp [spread, gap]

/-- Writing products out leaves a balanced formula balanced. -/
theorem isBalanced_withProducts : isBalanced (withProducts lex functions t) = isBalanced t := by
  obtain ⟨ps, hps, rfl, htokens⟩ := reads_tokens lex functions t
  rw [Bool.eq_iff_iff, isBalanced_iff, isBalanced_iff, withProducts, htokens, writeProducts_lay,
    openAfter?_spread hps (by simp)]

/-- What is no number, name, bracket or blank stands for itself. -/
def Single (ps : List Piece) : Prop := ∀ p ∈ ps, p.1 = .other → ∃ c, p.2 = [c]

theorem Single.of_cons {p : Piece} (h : Single (p :: ps)) : Single ps :=
  fun q hq => h q (List.mem_cons_of_mem p hq)

/-- Every subscript of a balanced formula is closed. -/
theorem Reads.single (hps : Reads known ps) {u : Text}
    (hbalanced : isBalanced (u ++ written ps) = true) : Single ps := by
  induction hps generalizing u with
  | nil => simp [Single]
  | @call name ps _ _ _ _ ih =>
    rw [written_cons, ← List.append_assoc] at hbalanced
    exact List.forall_mem_cons.mpr ⟨by simp, ih hbalanced⟩
  | @plain k c w ps hcut _ ih =>
    rw [written_cons, ← List.append_assoc] at hbalanced
    refine List.forall_mem_cons.mpr ⟨fun hk => ?_, ih hbalanced⟩
    obtain rfl : k = .other := hk
    cases hcut
    exact ⟨c, rfl⟩
  | @tail c body _ hcut =>
    have hopen := Bracket.not_isBalanced_of_open (u := u ++ [c, '_'])
      (Text.not_mem_of_cut?_eq_none hcut)
    simp_all

end Formulary.Formula
