import Formulary.Binding.Outcome
import Formulary.Lexicon.Builtin
import Formulary.Proofs.Binding.Protocol
import Formulary.Proofs.Formula.Numeral

/-! # What a number depends on

The right-hand side of a parameter is a numeral, and it is analysed like any formula.
A formula has no exponents, so the exponent mark of a numeral is a name of its own. The
small letter is a constant; the capital is not, and a number written with it depends on
a parameter of that name.
-/

namespace Formulary

variable {σ ι : Type} {r : Reading} {live : LiveNames} {arities : Formula.Arities} {raw : Text}
  {p : Plan}

namespace Numeral

/-- The names that a numeral refers to. -/
def names (t : Text) : List Name := if 'E' ∈ t then [['E']] else []

theorem names_eq {complex : Bool} {t : Text} (h : isNumeral t = true) :
    ((mark? t).toList.map fun c => [c]).filter
      (fun a => !Lexicon.builtin.isConstant complex a) = names t := by
  have hconstant : Lexicon.builtin.isConstant complex ['e'] = true ∧
      Lexicon.builtin.isConstant complex ['E'] = false := by
    cases complex <;> decide
  have hmem : ∀ c, isLetter c = true → (c ∈ t ↔ mark? t = some c) := by
    intro c hc
    have hin : c ∈ t.filter isLetter ↔ mark? t = some c := by
      rw [letters_of_isNumeral h, Option.mem_toList]
    rw [← hin, List.mem_filter, and_iff_left hc]
  rw [names, if_congr (hmem 'E' (by decide)) rfl rfl]
  cases hmark : mark? t with
  | none => rfl
  | some c =>
    have hc : isMark c = true := List.find?_some hmark
    simp only [isMark, Bool.or_eq_true, beq_iff_eq] at hc
    rcases hc with rfl | rfl
    · simp [hconstant.1]
    · simp [hconstant.2]

end Numeral

/-- Binding a plan that misses nothing and relies on nothing asks for nothing. -/
theorem Binding.ofPlan_independent (provider : Provider σ ι) (s : σ)
    (hdependencies : p.dependencies = []) (hmissing : p.missing = []) :
    ofPlan (some provider) live p s = (.ok ⟨p, []⟩, s) := by
  simp [ofPlan, hmissing, askAll, finish, hdependencies]

/-- A number calls nothing and depends on nothing but its exponent mark, where that is a capital.
Without one, binding it asks for nothing and creates nothing, whoever might answer. -/
theorem plan_numeral (hlex : r.lexicon = Lexicon.builtin)
    (hplan : plan r live arities raw = .ok p) (hkind : p.head.kind = .parameter) :
    p.calls = [] ∧ p.dependencies = Numeral.names p.rhs ∧
      p.missing = p.dependencies.filter (fun d => !live.contains d) ∧
      p.existing = p.dependencies.filter (fun d => live.contains d) ∧
      ('E' ∉ p.rhs → ∀ (provider : Provider σ ι) (s : σ),
        bind r live arities (some provider.noting) raw (s, []) = (.ok ⟨p, []⟩, s, [])) := by
  have hp := planned_of_plan hplan
  obtain ⟨-, symbol, -, -, hnumeral⟩ := hp.numeral hkind
  obtain ⟨hmissing, hexisting, -⟩ := partition_of_plan hplan
  have hformals : p.head.formals = [] := by
    revert hkind
    cases p.head <;> simp [Head.kind, Head.formals]
  have hdependencies : p.dependencies = Numeral.names p.rhs := by
    rw [hp.dependencies, Formula.freeSymbols_of_isNumeral hnumeral, hformals, hlex]
    exact Numeral.names_eq hnumeral
  refine ⟨?_, hdependencies, hmissing, hexisting, fun hcapital provider s => ?_⟩
  · rw [hp.calls, Formula.calls_of_isNumeral hnumeral]
  · have hnone : p.dependencies = [] := by rw [hdependencies, Numeral.names, if_neg hcapital]
    have hasked : p.missing = [] := by rw [hmissing, hnone, List.filter_nil]
    rw [bind, hplan]
    exact Binding.ofPlan_independent _ _ hnone hasked

theorem plan_numeral_for_small_exponent :
    let p : Plan := ⟨.parameter ⟨'k', none, 0⟩, text "-2.5e3", [], [], [], [], none⟩
    plan {} [] [] (text "k = -2.5e3") = .ok p ∧ p.head.kind = .parameter ∧ p.dependencies = [] ∧
      bind {} [] [] (some (Provider.willing []).noting) (text "k = -2.5e3") ((), []) =
        (.ok ⟨p, []⟩, (), []) := by
  intro p
  have hplan : plan {} [] [] (text "k = -2.5e3") = .ok p := by decide +kernel
  obtain ⟨-, hdependencies, -, -, hbind⟩ := plan_numeral rfl hplan rfl
  exact ⟨hplan, rfl, hdependencies, hbind (by decide) (Provider.willing []) ()⟩

/-- A number with a capital exponent mark depends on a name that would have to be created. -/
theorem plan_capital_exponent : plan {} [] [] (text "k = 1E5") =
    .ok ⟨.parameter ⟨'k', none, 0⟩, text "1E5", [['E']], [['E']], [], [], none⟩ := by
  decide +kernel

end Formulary
