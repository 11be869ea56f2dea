import Formulary.Proofs.Binding.Planned
import Formulary.Proofs.Formula.Known

/-! # More names in use

A definition is read without a look at the names in use; a plan is assembled against
them. Functions that the definition does not mention do not matter to the plan, but
for which of its dependencies are missing.
-/

namespace Formulary

variable {r : Reading} {live live' : LiveNames} {arities arities' : Formula.Arities} {raw : Text}
  {head : Head} {right : Text} {p : Plan} {name : Name}

namespace Plan

theorem plan_eq_ok : plan r live arities raw = .ok p ↔
    ∃ head right, read r raw = .ok (head, right) ∧ Assembled r live arities head right p := by
  rw [plan_eq_read]
  constructor
  · intro h
    obtain ⟨⟨head, right⟩, hread, h⟩ := ok_of_bind h
    exact ⟨head, right, hread, assemble_eq_ok.mp h⟩
  · rintro ⟨head, right, hread, h⟩
    rw [hread]
    exact assemble_eq_ok.mpr h

/-- The plan next to other names in use. -/
def against (p : Plan) (live : LiveNames) : Plan :=
  { p with
    missing := p.dependencies.filter fun d => !live.contains d
    existing := p.dependencies.filter fun d => live.contains d }

theorem Assembled.against_self (h : Assembled r live arities head right p) :
    p.against live = p := by
  rw [against, ← h.missing, ← h.existing]

/-! ### Functions that are not mentioned -/

/-- Other names in use with which a definition can be planned as well: there are more functions,
but the definition mentions none of them, and its own name is as new as before. -/
structure Beside (r : Reading) (head : Head) (right : Text) (live : LiveNames)
    (arities : Formula.Arities) (live' : LiveNames) (arities' : Formula.Arities) : Prop where
  functions : ∀ n ∈ live.functions, n ∈ arities.names
  functions' : ∀ n ∈ live'.functions, n ∈ arities'.names
  arity : ∀ n ∈ arities.names, arities'.get? n = arities.get? n
  added : ∀ n ∈ arities'.names, n ∉ arities.names → Spelled n ∧
    n ∉ Formula.mentioned r.lexicon (functionNames live arities head) right
  change : change r live' head = change r live head

theorem mentioned_finalRhs {functions : List Name}
    (h : name ∈ Formula.mentioned r.lexicon functions (finalRhs r functions head right)) :
    name ∈ Formula.mentioned r.lexicon functions right := by
  unfold finalRhs at h
  split at h
  · exact h
  · exact Formula.mentioned_withProducts h

/-- A right-hand side that does not call its own name has the same tokens without it. -/
theorem tokens_arities (hf : ∀ n ∈ live.functions, n ∈ arities.names)
    (hself : head.kind ≠ .parameter → head.name ∉ Formula.calledNames r.lexicon
      (functionNames live arities head) (finalRhs r (functionNames live arities head) head right)) :
    let rhs := finalRhs r (functionNames live arities head) head right
    Formula.tokens r.lexicon arities.names rhs =
      Formula.tokens r.lexicon (functionNames live arities head) rhs := by
  intro rhs
  by_cases hk : head.kind = .parameter
  · refine Formula.tokens_of_iff fun n => ?_
    rw [mem_functionNames hf]
    simp [hk]
  · have hwritten : Formula.WrittenOut r.lexicon (functionNames live arities head) rhs := by
      rw [show rhs = _ from if_neg hk]
      exact Formula.writtenOut_withProducts _ _ _
    refine (hwritten.of_userCalls fun n hn => ?_).1
    have hmem := (mem_functionNames hf).mp (Formula.mem_of_mem_userCalls hn)
    refine hmem.resolve_right fun hown => hself hk ?_
    exact hown.2 ▸ (Formula.mem_userCalls.mp hn).1

namespace Beside

variable (h : Beside r head right live arities live' arities')

include h

theorem kept : ∀ n ∈ arities.names, n ∈ arities'.names := by
  intro n hn
  rw [← Formula.Arities.isSome_get?, h.arity n hn, Formula.Arities.isSome_get?]
  exact hn

/-- Whatever mentions no more than the definition is cut in the same way. -/
theorem tokens {t : Text}
    (ht : ∀ n ∈ Formula.mentioned r.lexicon (functionNames live arities head) t,
      n ∈ Formula.mentioned r.lexicon (functionNames live arities head) right) :
    Formula.tokens r.lexicon (functionNames live' arities' head) t =
      Formula.tokens r.lexicon (functionNames live arities head) t := by
  refine Formula.tokens_of_known (fun n hn => ?_) fun n hn hno => ?_
  · rw [mem_functionNames h.functions] at hn
    exact (mem_functionNames h.functions').mpr (hn.imp_left (h.kept n))
  · rw [mem_functionNames h.functions, not_or] at hno
    have hin := ((mem_functionNames h.functions').mp hn).resolve_right hno.2
    exact ⟨(h.added n hin hno.1).1, fun hm => (h.added n hin hno.1).2 (ht n hm)⟩

theorem finalRhs : Plan.finalRhs r (functionNames live' arities' head) head right =
    Plan.finalRhs r (functionNames live arities head) head right := by
  unfold Plan.finalRhs
  split
  · rfl
  · rw [Formula.withProducts, Formula.withProducts, h.tokens fun _ hn => hn]

theorem tokens_finalRhs :
    let rhs := Plan.finalRhs r (functionNames live arities head) head right
    Formula.tokens r.lexicon (functionNames live' arities' head) rhs =
      Formula.tokens r.lexicon (functionNames live arities head) rhs :=
  h.tokens fun _ hn => mentioned_finalRhs hn

theorem calls (hself : head.kind ≠ .parameter → head.name ∉ Formula.calledNames r.lexicon
      (functionNames live arities head)
        (Plan.finalRhs r (functionNames live arities head) head right)) :
    let rhs := Plan.finalRhs r (functionNames live arities head) head right
    Formula.calls r.lexicon arities' rhs = Formula.calls r.lexicon arities rhs := by
  intro rhs
  have htokens := tokens_arities h.functions hself
  have hself' : head.kind ≠ .parameter → head.name ∉ Formula.calledNames r.lexicon
      (functionNames live' arities' head)
        (Plan.finalRhs r (functionNames live' arities' head) head right) := by
    rw [h.finalRhs, Formula.calledNames_congr h.tokens_finalRhs]
    exact hself
  have htokens' := tokens_arities h.functions' hself'
  rw [h.finalRhs] at htokens'
  refine Formula.calls_congr ?_ fun n hn => h.arity n (Formula.mem_of_mem_userCalls hn)
  exact htokens'.trans (h.tokens_finalRhs.trans htokens.symm)

theorem checkSelf {rhs : Text} (hrhs : rhs =
      Plan.finalRhs r (functionNames live arities head) head right) (dependencies : List Name) :
    Plan.checkSelf r (functionNames live' arities' head) head rhs dependencies =
      Plan.checkSelf r (functionNames live arities head) head rhs dependencies := by
  unfold Plan.checkSelf
  rw [hrhs, Formula.calledNames_congr h.tokens_finalRhs]

/-- The definition can be planned with both names in use or with none, and the plans differ in what
is missing only. -/
theorem assembled_iff : Assembled r live' arities' head right (p.against live') ↔
    Assembled r live arities head right (p.against live) := by
  have hcalls : p.rhs = Plan.finalRhs r (functionNames live arities head) head right →
      Plan.checkSelf r (functionNames live arities head) head p.rhs p.dependencies = .ok () →
      Formula.calls r.lexicon arities' p.rhs = Formula.calls r.lexicon arities p.rhs := by
    intro hrhs hself
    rw [hrhs] at hself ⊢
    exact h.calls fun hk => (checkSelf_eq_ok.mp hself hk).2
  have hfree : p.rhs = Plan.finalRhs r (functionNames live arities head) head right →
      Formula.freeSymbols r.lexicon r.complex head.formals (functionNames live' arities' head)
        p.rhs =
        Formula.freeSymbols r.lexicon r.complex head.formals (functionNames live arities head)
          p.rhs := by
    intro hrhs
    rw [hrhs]
    exact Formula.freeSymbols_congr h.tokens_finalRhs _ _
  constructor
  · intro ha
    have hrhs : p.rhs = _ := ha.rhs.trans h.finalRhs
    have hself := (h.checkSelf hrhs _).symm.trans ha.notSelf
    exact ⟨ha.sameHead, ha.reserved, h.change.symm.trans ha.change, hrhs,
      ha.calls.trans (hcalls hrhs hself), ha.fits, ha.dependencies.trans (hfree hrhs), hself,
      rfl, rfl⟩
  · intro ha
    have hrhs : p.rhs = _ := ha.rhs
    exact ⟨ha.sameHead, ha.reserved, h.change.trans ha.change, hrhs.trans h.finalRhs.symm,
      ha.calls.trans (hcalls hrhs ha.notSelf).symm, ha.fits,
      ha.dependencies.trans (hfree hrhs).symm, (h.checkSelf hrhs _).trans ha.notSelf, rfl, rfl⟩

end Beside

/-- The definition has a plan with both names in use or with none. -/
theorem plan_against (h : ∀ head right, read r raw = .ok (head, right) →
      Beside r head right live arities live' arities') :
    plan r live' arities' raw = .ok (p.against live') ↔
      plan r live arities raw = .ok (p.against live) := by
  rw [plan_eq_ok, plan_eq_ok]
  constructor
  · rintro ⟨head, right, hread, ha⟩
    exact ⟨head, right, hread, (h head right hread).assembled_iff.mp ha⟩
  · rintro ⟨head, right, hread, ha⟩
    exact ⟨head, right, hread, (h head right hread).assembled_iff.mpr ha⟩

theorem against_of_plan (h : plan r live arities raw = .ok p) : p.against live = p := by
  obtain ⟨head, right, -, ha⟩ := plan_eq_ok.mp h
  exact ha.against_self

/-- A plan depends on nothing but what the definition mentions. -/
theorem Assembled.mentioned_of_mem_dependencies (h : Assembled r live arities head right p)
    (hn : name ∈ p.dependencies) :
    name ∈ Formula.mentioned r.lexicon (functionNames live arities head) right := by
  rw [h.dependencies, h.rhs] at hn
  exact mentioned_finalRhs (Formula.mem_mentioned_of_mem_freeSymbols hn)

end Plan

end Formulary
