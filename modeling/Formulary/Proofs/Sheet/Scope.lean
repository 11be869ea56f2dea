import Formulary.Proofs.Eval.Scope
import Formulary.Sheet.Compute
import Formulary.Proofs.Sheet.Structure

/-! # The values for a definition

The scope that a definition is evaluated in has one row for each name: arguments for
its inputs, parameters for other names. An argument so hides the parameter with the
name of an input.
-/

namespace Formulary

open ParameterBook (setValue)

variable {b : ParameterBook} {scope : Scope} {name m : Name} {x y : Double}
  {pairs : List (Name × Double)}

/-! ### Setting values -/

theorem setValue_eq_place : setValue name x scope = Keyed.place Prod.fst (name, x) scope := by
  induction scope with
  | nil => rfl
  | cons p scope ih => rw [setValue, Keyed.place, ih]

theorem Scope.Keyed.setValue (h : scope.Keyed) : Scope.Keyed (setValue name x scope) := by
  rw [Scope.Keyed, setValue_eq_place]
  by_cases hn : name ∈ scope.map Prod.fst
  · rw [Keyed.place_of_mem h hn, List.map_map]
    refine (List.map_congr_left fun p _ => ?_ : _ = scope.map Prod.fst) ▸ h
    by_cases hp : p.1 = name <;> simp [hp]
  · rw [Keyed.place_of_not_mem hn, List.map_append, List.nodup_append_comm]
    exact List.nodup_cons.mpr ⟨hn, h⟩

theorem Scope.Keyed.mem_setValue (h : scope.Keyed) :
    (m, y) ∈ ParameterBook.setValue name x scope ↔
      m = name ∧ y = x ∨ m ≠ name ∧ (m, y) ∈ scope := by
  rw [setValue_eq_place]
  by_cases hn : name ∈ scope.map Prod.fst
  · rw [Keyed.place_of_mem h hn, List.mem_map]
    constructor
    · rintro ⟨p, hp, hy⟩
      split at hy
      · obtain ⟨rfl, rfl⟩ := Prod.mk.inj hy
        exact Or.inl ⟨rfl, rfl⟩
      · subst hy
        exact Or.inr ⟨‹_›, hp⟩
    · rintro (⟨rfl, rfl⟩ | ⟨hne, hp⟩)
      · obtain ⟨p, hp, hname⟩ := List.mem_map.mp hn
        exact ⟨p, hp, if_pos hname⟩
      · exact ⟨(m, y), hp, if_neg hne⟩
  · rw [Keyed.place_of_not_mem hn, List.mem_append, List.mem_singleton, Prod.mk.injEq]
    have hne : (m, y) ∈ scope → m ≠ name := by
      rintro hp rfl
      exact hn (List.mem_map_of_mem hp)
    tauto

theorem mem_keys_setValue : m ∈ (setValue name x scope).map Prod.fst ↔
    m = name ∨ m ∈ scope.map Prod.fst := by
  induction scope with
  | nil => simp [setValue]
  | cons p scope ih =>
    rw [setValue]
    split
    · simp [*]
    · rw [List.map_cons, List.mem_cons, ih, List.map_cons, List.mem_cons]
      tauto

theorem foldl_setValue {ps : List Parameter}
    (h : (scope.map Prod.fst ++ ps.map Parameter.name).Nodup) :
    ps.foldl (fun scope p => setValue p.name p.value scope) scope =
      scope ++ ps.map fun p => (p.name, p.value) := by
  induction ps generalizing scope with
  | nil => simp
  | cons p ps ih =>
    have hp : p.name ∉ scope.map Prod.fst := fun hin =>
      (List.nodup_append.mp h).2.2 _ hin _ (by simp) rfl
    rw [List.foldl_cons, setValue_eq_place, Keyed.place_of_not_mem hp, ih (by simpa using h)]
    simp

namespace ParameterBook

theorem Keyed.scope_eq (h : b.Keyed) : b.scope = b.entries.map fun p => (p.name, p.value) := by
  have hn : (([] : Scope).map Prod.fst ++ b.entries.map Parameter.name).Nodup := h.names
  rw [ParameterBook.scope, foldl_setValue hn, List.nil_append]

theorem Keyed.keys_scope (h : b.Keyed) : b.scope.map Prod.fst = b.names := by
  rw [h.scope_eq, List.map_map]
  rfl

theorem Keyed.keyed_scope (h : b.Keyed) : Scope.Keyed b.scope := by
  rw [Scope.Keyed, h.keys_scope]
  exact h.names

end ParameterBook

namespace Sheet

variable {s : Sheet} {d : Definition} {args : List Double}

/-! ### Arguments -/

/-- A scope with values bound one after another. -/
def bindAll (pairs : List (Name × Double)) (scope : Scope) : Scope :=
  pairs.foldl (fun scope p => bindValue scope p.1 p.2) scope

theorem bindAll_cons {p : Name × Double} :
    bindAll (p :: pairs) scope = bindAll pairs (ParameterBook.setValue p.1 p.2 scope) := rfl

theorem scopeFor_eq : s.scopeFor d args =
    if args = [] ∨ args.length = d.inputs.length then
      .ok (bindAll (d.inputs.zip args) s.parameters.scope)
    else .error (.argumentCount d.signature d.inputs.length args.length) := by
  unfold scopeFor
  by_cases hnil : args = []
  · simp [hnil, bindAll]
  · by_cases hlength : args.length = d.inputs.length <;> simp [hnil, hlength, bindAll]

theorem keyed_bindAll (h : scope.Keyed) : Scope.Keyed (bindAll pairs scope) := by
  induction pairs generalizing scope with
  | nil => exact h
  | cons p pairs ih => exact ih h.setValue

theorem mem_keys_bindAll : name ∈ (bindAll pairs scope).map Prod.fst ↔
    name ∈ pairs.map Prod.fst ∨ name ∈ scope.map Prod.fst := by
  induction pairs generalizing scope with
  | nil => simp [bindAll]
  | cons p pairs ih =>
    rw [bindAll_cons, ih, mem_keys_setValue, List.map_cons, List.mem_cons]
    tauto

end Sheet

end Formulary
