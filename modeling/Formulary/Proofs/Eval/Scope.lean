import Formulary.Proofs.Eval.Lawful
import Formulary.Proofs.Text.Distinct

/-! # Values in scope

The value of a formula does not depend on how the scope is arranged, and where a
symbol does not stand, a finite value may be exchanged for another one or left out.
-/

namespace Formulary.Repertoire

variable {scope scope' : Scope} {name : Name} {x : Double}

/-! ### Identified values -/

theorem keys_identified (scope : Scope) :
    (identified scope).map (·.1) = (scope.map (·.1)).map Identifier.ofName := by
  rw [identified, List.map_map, List.map_map]
  rfl

theorem keyed_identified (h : scope.Keyed) : Scope.Keyed (identified scope) := by
  have hkeys := keys_identified scope
  unfold Scope.Keyed
  rw [hkeys]
  exact h.map fun _ _ => Identifier.ofName_inj.mp

theorem infinites_identified (scope : Scope) :
    Scope.infinites (identified scope) = scope.infinites := by
  unfold Scope.infinites identified
  rw [List.countP_map]
  rfl

theorem identified_filter (scope : Scope) (name : Name) :
    identified (scope.filter (·.1 != name)) =
      (identified scope).filter (·.1 != Identifier.ofName name) := by
  rw [identified, identified, List.filter_map]
  congr 1
  apply List.filter_congr
  intro p _
  rw [Bool.eq_iff_iff]
  simp [Identifier.ofName_inj]

/-! ### Evaluation -/

variable [Arithmetic] {r : Repertoire} {formula : Text} {e : Arithmetic.Expr}

theorem openNames_congr {known known' : List Name}
    (h : ∀ id ∈ Arithmetic.symbols e,
      id ∈ known.map Identifier.ofName ↔ id ∈ known'.map Identifier.ofName) :
    openNames e known = openNames e known' := by
  unfold openNames
  dsimp only
  congr 2
  apply List.filter_congr
  intro id hid
  rw [Bool.eq_iff_iff, Bool.not_eq_true', Bool.not_eq_true', ← Bool.not_eq_true,
    ← Bool.not_eq_true, List.contains_iff_mem, List.contains_iff_mem, h id (Text.mem_dedup.mp hid)]

/-- Evaluation for a scope goes as for another if both have values for the same symbols and these
are put in alike. -/
theorem evaluate_congr
    (h : ∀ e, r.read formula = .ok e →
      (∀ id ∈ Arithmetic.symbols e, id ∈ (scope.map (·.1)).map Identifier.ofName ↔
        id ∈ (scope'.map (·.1)).map Identifier.ofName) ∧
      Arithmetic.substitute e (identified scope) = Arithmetic.substitute e (identified scope')) :
    r.evaluate formula scope = r.evaluate formula scope' := by
  unfold evaluate
  cases hread : r.read formula with
  | error f => rfl
  | ok e =>
    obtain ⟨hknown, hput⟩ := h e hread
    simp only [Bind.bind, Except.bind, openNames_congr hknown, compute, hput]

variable [LawfulArithmetic]

/-- The value of a formula does not depend on how the scope is arranged. -/
theorem evaluate_perm (hperm : scope.Perm scope') (hkeyed : scope.Keyed) :
    r.evaluate formula scope = r.evaluate formula scope' := by
  refine evaluate_congr fun e _ => ⟨fun id _ => ?_, ?_⟩
  · exact ((hperm.map _).map _).mem_iff
  · exact LawfulArithmetic.substitute_perm (hperm.map _) (keyed_identified hkeyed)

/-- A name whose symbol is not in what a formula reads as needs no value. -/
theorem evaluate_without
    (hread : ∀ e, r.read formula = .ok e → Identifier.ofName name ∉ Arithmetic.symbols e)
    (hkeyed : scope.Keyed) (hone : scope.infinites ≤ 1) :
    r.evaluate formula (scope.filter (·.1 != name)) = r.evaluate formula scope := by
  refine evaluate_congr fun e he => ⟨fun id hid => ?_, ?_⟩
  · have hne : id ≠ Identifier.ofName name := fun heq => hread e he (heq ▸ hid)
    rw [← keys_identified, ← keys_identified, identified_filter]
    simp [hne]
  · rw [identified_filter]
    exact LawfulArithmetic.substitute_without (hread e he) (keyed_identified hkeyed)
      (by rwa [infinites_identified])

end Formulary.Repertoire
