import Formulary.Proofs.Binding.Sides

/-! # Plans printed

A plan is printed as a definition in its usual spelling. Nothing in it is replaced, the
sign is found where it was put, and both sides are read as they stand. So planned
again, it is the same plan.
-/

namespace Formulary

open Text (Trim Stops)
open Lexicon (plainOperator)

variable {r : Reading} {live : LiveNames} {arities : Formula.Arities} {lex : Lexicon}
  {functions : List Name} {head : Head} {raw left right : Text} {p : Plan}

/-- The definition that a plan is printed as. -/
def Plan.printed (p : Plan) : Text := p.head.spelling ++ text " = " ++ p.rhs

/-! ### Two sides put together -/

theorem trim_definition (hl : LeftSide lex left) (hr : RightSide lex right) :
    Trim (left ++ text " = " ++ right) := by
  obtain ⟨c, left', rfl⟩ := List.exists_cons_of_ne_nil hl.nonempty
  refine ⟨by simpa [Stops] using hl.trim.1, fun c hc => hr.trim.2 c ?_⟩
  obtain ⟨d, hd⟩ := Option.isSome_iff_exists.mp (List.getLast?_isSome.mpr hr.nonempty)
  rw [List.head?_reverse, List.getLast?_append, hd] at hc
  rw [List.head?_reverse, hd]
  exact hc

/-- Nothing is replaced on either side. -/
theorem normalize_definition (hlex : lex.Regular) (hl : LeftSide lex left)
    (hr : RightSide lex right) :
    lex.normalize (left ++ text " = " ++ right) = left ++ text " = " ++ right := by
  have hcopied : ∀ c ∈ left ++ text " = " ++ right, c ≠ '\\' ∧ plainOperator c = c := by
    rw [List.forall_mem_append, List.forall_mem_append]
    exact ⟨⟨hl.copied, by simp [text, plainOperator]⟩, hr.copied⟩
  have hfree : lex.WordFree 0 false (left ++ (text " = " ++ right)) := by
    have hsign : ∀ c ∈ text " = ", isLatin c = false := by simp [text, isLatin]
    have hdepth : Lexicon.depthAfter 0 (text " = ") = 0 := by decide
    rw [Lexicon.wordFree_append_iff (fun hin => (hl.copied _ hin).1 rfl)
      (Lexicon.severed_of_stops (by simp [Stops, text, isLatin])),
      Lexicon.depthAfter_of_isBalanced hl.balanced,
      Lexicon.wordFree_append_iff (by decide) (Lexicon.severed_of_last hsign), hdepth]
    exact ⟨hl.clear.wordFree 0, Lexicon.wordFree_of_not_latin hsign, hr.wordFree⟩
  have hslash : '\\' ∉ left ++ text " = " ++ right := fun hin => (hcopied _ hin).1 rfl
  rw [hlex.normalize_of_keyFree (fun c hc => (hcopied c hc).2) (hlex.keyFree_of_not_mem hslash),
    Lexicon.replaceWords_eq, hlex.renamedFrom_of_wordFree]
  rwa [List.append_assoc]

/-- The sign is the one between the sides. -/
theorem split_definition (hl : LeftSide lex left) (hr : RightSide lex right) :
    Assignment.split (left ++ text " = " ++ right) = .ok (left, right) := by
  have hnone : ∀ c ∈ ([] : Text), Text.isBlank c = true := by simp
  have hblank : ∀ c ∈ [' '], Text.isBlank c = true := List.forall_mem_singleton.mpr rfl
  have hleft : Text.strip (left ++ [' ']) = left :=
    Text.strip_append hl.trim hl.nonempty hnone hblank
  have hright : Text.strip ([' '] ++ (right ++ [])) = right :=
    Text.strip_append hr.trim hr.nonempty hblank hnone
  have hdefinition : left ++ text " = " ++ right = (left ++ [' ']) ++ '=' :: ([' '] ++ right) := by
    simp [text]
  have hsign : Assignment.find? ((left ++ [' ']) ++ '=' :: ([' '] ++ right)) =
      some (left ++ [' ']).length := by
    have hblankPasses : Assignment.Passes [' '] :=
      Assignment.passes_of_quiet (List.forall_mem_singleton.mpr (by decide))
    have hbalanced := Bracket.isBalanced_iff.mp hl.balanced
    have hopen : Bracket.openAfter? [] (left ++ [' ']) = some [] := by
      rw [Bracket.openAfter?_append, hbalanced]
      rfl
    have hpass := (hl.clear.passes.append hblankPasses) [] [] 0 ('=' :: ([' '] ++ right)) hopen
    rw [Assignment.find?]
    refine hpass.trans ?_
    simp [Assignment.findFrom, Bracket.isOpening, Bracket.isClosing, Assignment.joinsEquals]
  rw [List.append_nil] at hright
  rw [hdefinition, Assignment.split_append hsign, hleft, hright, hr.unsigned]
  simp [hl.nonempty]

theorem Plan.sides_definition (hlex : r.lexicon.Regular) (hl : LeftSide r.lexicon left)
    (hr : RightSide r.lexicon right)
    (hlength : (left ++ text " = " ++ right).length ≤ r.maxLength) :
    sides r (left ++ text " = " ++ right) = .ok (left, right) := by
  have hne : (left ++ text " = " ++ right).isEmpty = false := by simp [hl.nonempty]
  unfold sides
  rw [if_neg (Nat.not_lt.mpr hlength), normalize_definition hlex hl hr,
    Text.strip_eq_self (trim_definition hl hr)]
  simp only [hne, Bool.false_eq_true, if_false]
  exact split_definition hl hr

/-! ### Steps taken again -/

namespace Plan

theorem finalRhs_finalRhs : finalRhs r functions head (finalRhs r functions head right) =
    finalRhs r functions head right := by
  unfold finalRhs
  split
  · rfl
  · exact (Formula.writtenOut_withProducts r.lexicon functions right).withProducts

/-- A number stays one, and other heads are settled. -/
theorem settle_settle :
    settle (settle head right) (finalRhs r functions (settle head right) right) =
      settle head right := by
  cases head with
  | parameter s =>
    by_cases hn : Numeral.isNumeral right = true
    · have hsettle : settle (.parameter s) right = .parameter s := if_pos hn
      have hrhs : finalRhs r functions (.parameter s) right = right := if_pos rfl
      rw [hsettle, hrhs, hsettle]
    · have hsettle : settle (.parameter s) right = .function s [] := if_neg hn
      rw [hsettle]
      rfl
  | function | anonymous => rfl

theorem assemble_finalRhs :
    assemble r live arities head (finalRhs r (functionNames live arities head) head right) =
      assemble r live arities head right := by
  unfold assemble
  simp only [finalRhs_finalRhs]

end Plan

/-- Planned again, the definition that a plan is printed as gives the same plan. -/
theorem plan_printed (hlex : r.lexicon = Lexicon.builtin) (hraw : '\\' ∉ raw)
    (h : plan r live arities raw = .ok p) (hlength : p.printed.length ≤ r.maxLength) :
    plan r live arities p.printed = .ok p := by
  have hregular : r.lexicon.Regular := hlex ▸ Lexicon.builtin_regular
  obtain ⟨left, right, written, hsteps⟩ := Plan.steps_of_plan h
  obtain ⟨hhead, hrhs⟩ := Plan.of_assemble hsteps.assembled
  obtain ⟨⟨words, hspells⟩, hleft⟩ := LeftSide.of_steps hregular hraw hsteps
  have hright : RightSide r.lexicon p.rhs := by
    have hright := RightSide.of_steps hregular hraw hsteps
    rw [hrhs]
    unfold Plan.finalRhs
    split
    · exact hright
    · exact hright.withProducts hregular
  have hsettle : Plan.settle p.head p.rhs = p.head := by
    rw [hrhs, hhead]
    exact Plan.settle_settle
  have hagain : Plan.Steps r live arities p.printed p.head.spelling p.rhs p.head p := by
    constructor
    case sides => exact Plan.sides_definition hregular hleft hright hlength
    case head =>
      exact Plan.writtenHead_eq_ok.mpr ⟨hleft.balanced,
        Head.parse_of_spells r.lexicon hspells (Head.spaced_spelling hspells)⟩
    case nonempty => exact hright.nonempty
    case balanced => exact hright.balanced
    case assembled =>
      rw [hsettle, hrhs, hhead, Plan.assemble_finalRhs]
      exact hsteps.assembled
  exact hagain.plan

/-- A function with blanks to drop, products to write out and a word to replace. -/
theorem plan_printed_with_products :
    let live : LiveNames := [(text "h", some .function)]
    let arities : Formula.Arities := [(text "h", 1)]
    let raw := text " g( x ,k_{a = b})= 2x sin (k_{a = b})+ gamma h(x) {ab pi} "
    ∃ p, plan {} live arities raw = .ok p ∧
      p.printed = text "g(x, k_{a = b}) = 2*x*sin (k_{a = b})+ γ*h(x) {a*b*p*i}" ∧
      plan {} live arities p.printed = .ok p := by
  intro live arities raw
  let p : Plan := {
    head := .function ⟨'g', none, 0⟩ [text "x", text "k_{a = b}"]
    rhs := text "2*x*sin (k_{a = b})+ γ*h(x) {a*b*p*i}"
    dependencies := [text "γ", text "a", text "b", text "p", text "i"]
    missing := [text "γ", text "a", text "b", text "p", text "i"]
    existing := []
    calls := [⟨text "h", 1, some 1, 23⟩]
    transition := none }
  have hplan : plan {} live arities raw = .ok p := by decide +kernel
  exact ⟨p, hplan, by decide +kernel, plan_printed rfl (by decide +kernel) hplan
    (by decide +kernel)⟩

end Formulary
