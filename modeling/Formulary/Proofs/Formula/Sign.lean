import Formulary.Proofs.Formula.Balance
import Formulary.Proofs.Lexicon.Sign

/-! # Signs outside brackets

The search for an equals sign counts the open brackets, as many as lie on the stack of
a balanced text. So a sign in a subscript is passed by, and writing products out gives
a formula no sign that it did not have.
-/

namespace Formulary

open Formulary.Bracket (openAfter? openAfter?_append mem_openAfter?)

variable {t u blanks : Text} {c : Char} {i : Nat} {prev : Option Char}
  {stack stack' : List Char}

namespace Assignment

/-! ### Texts passed by -/

/-- Inside a brace that is not closed there is no sign. -/
theorem findFrom_of_inside (hbrace : '\x7b' ∈ stack) (ht : '\x7d' ∉ t)
    (h : openAfter? stack t = some stack') : ∃ last,
      findFrom prev stack.length i (t ++ u) = findFrom last stack'.length (i + t.length) u := by
  fun_induction openAfter? stack t generalizing prev i with
  | case1 =>
    obtain rfl := Option.some.inj h
    exact ⟨prev, rfl⟩
  | case2 stack c rest hc ih =>
    rw [List.mem_cons, not_or] at ht
    obtain ⟨last, hlast⟩ := ih (List.mem_cons_of_mem c hbrace) ht.2 h
    refine ⟨last, ?_⟩
    rw [List.cons_append, findFrom, if_pos hc, List.length_cons, Nat.add_comm rest.length 1,
      ← Nat.add_assoc, ← hlast]
    rfl
  | case3 => simp at h
  | case4 c rest hc hclose o outer hfits ih =>
    rw [List.mem_cons, not_or] at ht
    have hne : o ≠ '\x7b' := by
      rintro rfl
      obtain rfl : '\x7d' = c := by simpa [Bracket.closing?] using hfits
      exact ht.1 rfl
    have hbrace : '\x7b' ∈ outer := by simpa [Ne.symm hne] using hbrace
    obtain ⟨last, hlast⟩ := ih hbrace ht.2 h
    refine ⟨last, ?_⟩
    rw [List.cons_append, findFrom, if_neg hc, if_pos hclose, List.length_cons,
      List.length_cons, Nat.add_comm rest.length 1, ← Nat.add_assoc, ← hlast]
    rfl
  | case5 => simp at h
  | case6 stack c rest hc hclose ih =>
    rw [List.mem_cons, not_or] at ht
    have hopen : stack.length ≠ 0 := (List.length_pos_iff.mpr (List.ne_nil_of_mem hbrace)).ne'
    obtain ⟨last, hlast⟩ := ih hbrace ht.2 h
    refine ⟨last, ?_⟩
    rw [List.cons_append, findFrom, if_neg hc, if_neg hclose, if_neg (by simp [hopen]),
      List.length_cons, Nat.add_comm rest.length 1, ← Nat.add_assoc, ← hlast]

/-- The search goes on behind the text, with the brackets that it leaves open. -/
def Passes (t : Text) : Prop := ∀ stack stack' i u, openAfter? stack t = some stack' →
  findFrom none stack.length i (t ++ u) = findFrom none stack'.length (i + t.length) u

theorem Passes.append (ht : Passes t) (hu : Passes u) : Passes (t ++ u) := by
  intro stack stack' i v h
  rw [openAfter?_append] at h
  obtain ⟨between, ht', hu'⟩ := Option.bind_eq_some_iff.mp h
  rw [List.append_assoc, ht _ _ _ _ ht', hu _ _ _ _ hu', List.length_append, Nat.add_assoc]

theorem passes_of_quiet (ht : ∀ c ∈ t, IsQuiet c) : Passes t := by
  intro stack stack' i u h
  rw [Bracket.openAfter?_of_plain fun c hc => ⟨(ht c hc).1, (ht c hc).2.1⟩] at h
  obtain rfl := Option.some.inj h
  exact findFrom_quiet ht

theorem passes_opening (hc : Bracket.isOpening c = true) : Passes [c] := by
  intro stack stack' i u h
  have hpush : stack' = c :: stack := by simpa [openAfter?, hc, eq_comm] using h
  have hprev : joinsEquals (some c) = joinsEquals none := by
    simp only [Bracket.isOpening, Bool.or_eq_true, beq_iff_eq] at hc
    rcases hc with (rfl | rfl) | rfl <;> rfl
  rw [hpush, List.singleton_append, findFrom, if_pos hc, findFrom_congr hprev]
  rfl

/-- Behind a closing bracket it plays no part what stood before it. -/
theorem findFrom_closing (hc : Bracket.isClosing c = true)
    (h : openAfter? stack [c] = some stack') :
    findFrom prev stack.length i (c :: u) = findFrom none stack'.length (i + 1) u := by
  have hclass : Bracket.isOpening c = false ∧ joinsEquals (some c) = joinsEquals none := by
    simp only [Bracket.isClosing, Bool.or_eq_true, beq_iff_eq] at hc
    rcases hc with (rfl | rfl) | rfl <;> decide
  have hpop : ∃ o, stack = o :: stack' := by
    cases stack with
    | nil => simp [openAfter?, hc, hclass.1] at h
    | cons o outer =>
      simp only [openAfter?, hc, hclass.1, Bool.false_eq_true, if_false, if_true] at h
      split at h
      case isTrue => exact ⟨o, by rw [Option.some.inj h]⟩
      case isFalse => simp at h
  obtain ⟨o, rfl⟩ := hpop
  rw [findFrom, if_neg (by simp [hclass.1]), if_pos hc, findFrom_congr hclass.2]
  rfl

theorem passes_closing (hc : Bracket.isClosing c = true) : Passes [c] :=
  fun _ _ _ _ h => findFrom_closing hc h

theorem passes_subscript (hcontent : '\x7d' ∉ t) : Passes (Symbol.subscriptText t) := by
  have hmark : Passes ['_'] := passes_of_quiet (List.forall_mem_singleton.mpr (by decide))
  have hbraces : Passes ('\x7b' :: (t ++ ['\x7d'])) := by
    intro stack stack' i u h
    have hopen : openAfter? ('\x7b' :: stack) (t ++ ['\x7d']) = some stack' := h
    rw [openAfter?_append] at hopen
    obtain ⟨inner, ht, hclose⟩ := Option.bind_eq_some_iff.mp hopen
    have hfront := passes_opening (c := '\x7b') rfl stack _ i (t ++ '\x7d' :: u) rfl
    obtain ⟨last, hinside⟩ : ∃ last,
        findFrom none (stack.length + 1) (i + 1) (t ++ '\x7d' :: u) =
          findFrom last inner.length (i + 1 + t.length) ('\x7d' :: u) :=
      findFrom_of_inside List.mem_cons_self hcontent ht
    calc findFrom none stack.length i ('\x7b' :: (t ++ ['\x7d']) ++ u)
        = findFrom none stack.length i ('\x7b' :: (t ++ '\x7d' :: u)) := by simp
      _ = findFrom none (stack.length + 1) (i + 1) (t ++ '\x7d' :: u) := hfront
      _ = findFrom last inner.length (i + 1 + t.length) ('\x7d' :: u) := hinside
      _ = findFrom none stack'.length (i + 1 + t.length + 1) u := findFrom_closing rfl hclose
      _ = findFrom none stack'.length (i + ('\x7b' :: (t ++ ['\x7d'])).length) u := by
        congr 1
        simp only [List.length_cons, List.length_append, List.length_nil]
        omega
  exact hmark.append hbraces

/-- A `*` in place of blanks is no part of a sign, unless one comes next. -/
theorem sameSigns_star (hblanks : ∀ b ∈ blanks, Text.isBlank b = true) (ht : t.head? ≠ some '=') :
    SameSigns ('*' :: t) (blanks ++ t) := by
  have hstar : ∀ c ∈ ['*'], IsQuiet c := List.forall_mem_singleton.mpr (by decide)
  by_cases hne : blanks = []
  · subst hne
    refine ⟨fun prev k i j => ?_, by simpa using ht⟩
    have hprev : findFrom prev k j t = findFrom none k j t := findFrom_of_head ht
    rw [findFrom_cons (c := '*') (by decide), List.nil_append, hprev]
    exact (SameSigns.refl t).found _ _ _ _
  · exact sameSigns_quiet (by simp) hne hstar (fun b hb => isQuiet_of_isBlank (hblanks b hb))
      (.refl t)

end Assignment

namespace Formula

open Assignment (SameSigns find?)

variable {lex : Lexicon} {functions : List Name} {known : Name → Bool} {left : Option TokenKind}
  {ps : List Piece}

theorem Starts.ne_equals {k : TokenKind} (h : Starts k c) (hk : Formula.startsOperand k = true) :
    c ≠ '=' := by
  rintro rfl
  cases k with
  | number => rcases h with h | h <;> exact absurd h (by decide)
  | atom | func => exact absurd (show isLetter '=' = true from h) (by decide)
  | opening => exact absurd (show ('=' == '(' || '=' == '[') = true from h) (by decide)
  | _ => simp [Formula.startsOperand] at hk

/-- Written out or not, a formula has the same signs. -/
theorem Reads.sameSigns (hps : Reads known ps) (hb : Waits blanks ps) :
    SameSigns (written (Formula.spread left blanks ps)) (blanks ++ written ps) := by
  have hstep : ∀ {p : Piece} {ps : List Piece} {left : Option TokenKind} {blanks : Text},
      Reads known (p :: ps) → p.1 ≠ .space → (∀ b ∈ blanks, Text.isBlank b = true) →
      SameSigns (written (Formula.spread (some p.1) [] ps)) (written ps) →
      SameSigns (written (Formula.spread left blanks (p :: ps))) (blanks ++ written (p :: ps)) := by
    intro p ps left blanks hps hp hb hrest
    have hmore := hrest.append_left p.2
    rw [spread_cons hp, written_append, written_cons, written_cons, Formula.between]
    split
    case isTrue hm =>
      obtain ⟨c, w, hw, hc⟩ := hps.starts
      obtain ⟨l, -, hm⟩ := (Option.any_eq_true _ _).mp hm
      have hoperand : Formula.startsOperand p.1 = true := ((Bool.and_eq_true _ _).mp hm).2
      refine (hmore.append_left ['*']).trans (Assignment.sameSigns_star hb ?_)
      simpa [hw] using hc.ne_equals hoperand
    case isFalse =>
      rw [written_gap]
      exact hmore.append_left blanks
  induction hps generalizing left blanks with
  | nil =>
    rw [Formula.spread, written_gap, written_nil, List.append_nil]
    exact .refl blanks
  | call hname hk hl hps ih => exact hstep (.call hname hk hl hps) (by simp) hb.1 (ih waits_nil)
  | @plain k c w ps hcut hps ih =>
    by_cases hk : k = .space
    · subst hk
      obtain rfl := hb.eq_nil (.plain hcut hps) rfl
      obtain ⟨hw, hstop, -⟩ := (Reads.plain hcut hps).space
      rw [Formula.spread, if_pos rfl]
      exact ih ⟨hw, fun _ => hstop⟩
    · exact hstep (.plain hcut hps) hk hb.1 (ih waits_nil)
  | tail hc hcut =>
    refine hstep (.tail hc hcut) (by simp) hb.1 ?_
    rw [spread_stray]
    exact .refl _

/-- Writing products out makes no sign. -/
theorem find?_withProducts {t : Text} :
    find? (withProducts lex functions t) = none ↔ find? t = none := by
  obtain ⟨ps, hps, rfl, htokens⟩ := reads_tokens lex functions t
  have hsigns : SameSigns (written (spread none [] ps)) (written ps) := hps.sameSigns waits_nil
  have hfound : (find? (written (spread none [] ps))).isSome = (find? (written ps)).isSome :=
    hsigns.found none 0 0 0
  rw [withProducts, htokens, writeProducts_lay, ← Option.isNone_iff_eq_none,
    ← Option.isNone_iff_eq_none, ← Option.not_isSome, ← Option.not_isSome, hfound]

end Formula

end Formulary
