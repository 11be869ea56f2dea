import Formulary.Proofs.Binding.Planned
import Formulary.Proofs.Sheet.Linked

/-! # What a definition is bound against

The names in use are the parameters and the functions, each with its kind, but
for a name that is to be replaced.
-/

namespace Formulary.Sheet

variable {s : Sheet} {raw : Text} {redefine : Bool} {name : Name} {p : Plan}

theorem Consistent.liveNames_eq (h : s.Consistent) : s.liveNames =
    s.parameters.names.map (fun n => (n, some .parameter)) ++
      s.definitions.names.map fun n => (n, some .function) := by
  have hparameters : (([] : LiveNames).map Prod.fst ++ s.parameters.names.map id).Nodup := by
    simpa using h.parameters.names
  have hall : ((s.parameters.names.map fun n => (id n, some NameKind.parameter)).map Prod.fst ++
      s.definitions.names.map id).Nodup := by
    rw [List.map_map, List.map_id]
    refine List.nodup_append.mpr ⟨?_, h.definitions.names, ?_⟩
    · exact (List.map_id s.parameters.names).symm ▸ h.parameters.names
    · rintro a ha _ hb rfl
      exact h.disjoint (by simpa using ha) hb
  change s.definitions.names.foldl
    (fun l n => DefinitionBook.setKey (id n) (some NameKind.function) l)
      (s.parameters.names.foldl
        (fun l n => DefinitionBook.setKey (id n) (some NameKind.parameter) l) []) = _
  rw [DefinitionBook.foldl_setKey hparameters, List.nil_append, DefinitionBook.foldl_setKey hall]
  rfl

/-- A row of the names in use. -/
theorem Consistent.mem_liveNames (h : s.Consistent) {kind : Option NameKind} :
    (name, kind) ∈ s.liveNames ↔
      (name ∈ s.parameters.names ∧ kind = some .parameter) ∨
        (name ∈ s.definitions.names ∧ kind = some .function) := by
  rw [h.liveNames_eq]
  simp [eq_comm]

/-- Without replacement, the context is the sheet as it is. -/
theorem contextFor_false (s : Sheet) (raw : Text) :
    s.contextFor raw false = ⟨none, s.liveNames, s.definitions.arities⟩ := by
  have hall : s.definitions.arities.filter (fun a => some a.1 != none) = s.definitions.arities :=
    List.filter_eq_self.mpr fun a _ => rfl
  simp only [contextFor, Bool.false_eq_true, if_false, Option.map_none, Option.getD_none, hall]

/-- The rows of the context are those of the sheet without the replaced name. -/
theorem mem_live {kind : Option NameKind} :
    (name, kind) ∈ (s.contextFor raw redefine).live ↔
      (name, kind) ∈ s.liveNames ∧ some name ≠ (s.contextFor raw redefine).replaced := by
  unfold contextFor
  dsimp only
  cases (if redefine then s.redefined? s.liveNames raw else none) with
  | none => simp
  | some n => simp [LiveNames.erase]

theorem contains_iff_exists_row {live : LiveNames} :
    live.contains name = true ↔ ∃ kind, (name, kind) ∈ live := by
  simp [LiveNames.contains]

theorem Consistent.contains_liveNames (h : s.Consistent) : s.liveNames.contains name = true ↔
    name ∈ s.parameters.names ∨ name ∈ s.definitions.names := by
  rw [contains_iff_exists_row]
  simp only [h.mem_liveNames]
  constructor
  · rintro ⟨_, ⟨hn, -⟩ | ⟨hn, -⟩⟩
    · exact Or.inl hn
    · exact Or.inr hn
  · rintro (hn | hn)
    · exact ⟨_, Or.inl ⟨hn, rfl⟩⟩
    · exact ⟨_, Or.inr ⟨hn, rfl⟩⟩

theorem Consistent.live_contains (h : s.Consistent) :
    (s.contextFor raw redefine).live.contains name = true ↔
      (name ∈ s.parameters.names ∨ name ∈ s.definitions.names) ∧
        some name ≠ (s.contextFor raw redefine).replaced := by
  rw [← h.contains_liveNames, contains_iff_exists_row, contains_iff_exists_row]
  simp only [mem_live, exists_and_right]

theorem Consistent.kind?_eq_some (h : s.Consistent) {kind : NameKind}
    (hk : (s.contextFor raw redefine).live.kind? name = some kind) :
    (name ∈ s.parameters.names ∧ kind = .parameter) ∨
      (name ∈ s.definitions.names ∧ kind = .function) := by
  obtain ⟨⟨n, k⟩, hf, rfl⟩ := Option.bind_eq_some_iff.mp hk
  obtain rfl : n = name := by simpa using List.find?_some hf
  have hrow := (mem_live.mp (List.mem_of_find?_eq_some hf)).1
  simpa [h.mem_liveNames] using hrow

theorem Consistent.mem_functions (h : s.Consistent) :
    name ∈ (s.contextFor raw redefine).live.functions ↔
      name ∈ s.definitions.names ∧ some name ≠ (s.contextFor raw redefine).replaced := by
  have hrow : name ∈ (s.contextFor raw redefine).live.functions ↔
      (name, some NameKind.function) ∈ (s.contextFor raw redefine).live := by
    simp [LiveNames.functions]
  rw [hrow, mem_live, h.mem_liveNames]
  simp

theorem Consistent.mem_arities (h : s.Consistent) :
    name ∈ (s.contextFor raw redefine).arities.names ↔
      name ∈ s.definitions.names ∧ some name ≠ (s.contextFor raw redefine).replaced := by
  rw [← h.definitions.names_arities]
  simp [contextFor, Formula.Arities.names]

theorem get?_arities (hne : some name ≠ (s.contextFor raw redefine).replaced) :
    (s.contextFor raw redefine).arities.get? name = s.definitions.arities.get? name := by
  have harities : (s.contextFor raw redefine).arities = s.definitions.arities.filter
      fun a => some a.1 != (s.contextFor raw redefine).replaced := rfl
  rw [harities, Formula.Arities.get?, Formula.Arities.get?, List.find?_filter]
  congr 2
  funext a
  by_cases ha : a.1 = name
  · simp [ha, hne]
  · simp [ha]

/-! ### The replaced name -/

/-- The plan of a text in the context that the sheet gives it. -/
def Plans (s : Sheet) (raw : Text) (redefine : Bool) (p : Plan) : Prop :=
  plan s.reading (s.contextFor raw redefine).live (s.contextFor raw redefine).arities raw = .ok p

theorem plans_false : s.Plans raw false p ↔
    plan s.reading s.liveNames s.definitions.arities raw = .ok p := by
  rw [Plans, contextFor_false]

theorem Plans.planned (h : s.Plans raw redefine p) : Planned s.reading
    (s.contextFor raw redefine).live (s.contextFor raw redefine).arities raw p :=
  planned_of_plan h

/-- What is replaced is the live name that is defined, and only on request. -/
theorem Consistent.replaced_eq_some (h : s.Consistent) (hp : s.Plans raw redefine p)
    (hr : (s.contextFor raw redefine).replaced = some name) :
    redefine = true ∧ p.head.kind ≠ .anonymous ∧ p.head.name = name ∧
      (name ∈ s.parameters.names ∨ name ∈ s.definitions.names) := by
  have hr' : (if redefine then s.redefined? s.liveNames raw else none) = some name := hr
  split at hr'
  case isFalse => simp at hr'
  case isTrue hredefine =>
    unfold redefined? at hr'
    split at hr'
    · simp at hr'
    case h_2 p' hp' =>
      have hhead : p.head = p'.head := head_eq_of_plan hp hp'
      split at hr'
      · simp at hr'
      case isFalse hno =>
        obtain rfl := Option.some.inj hr'
        rw [← hhead] at hno ⊢
        simp only [Bool.or_eq_true, decide_eq_true_eq, Bool.not_eq_true', not_or,
          Bool.not_eq_false] at hno
        obtain ⟨kind, hrow⟩ := contains_iff_exists_row.mp hno.2
        refine ⟨hredefine, hno.1, rfl, ?_⟩
        rcases h.mem_liveNames.mp hrow with ⟨hn, -⟩ | ⟨hn, -⟩
        · exact Or.inl hn
        · exact Or.inr hn

/-- Without replacement, a live name is only defined anew as the other kind. -/
theorem Consistent.change_cases (h : s.Consistent) (hp : s.Plans raw redefine p)
    (hkind : p.head.kind ≠ .anonymous) :
    (s.contextFor raw redefine).replaced = some p.head.name ∧ p.transition = none ∨
    (s.contextFor raw redefine).replaced = none ∧
      ((p.head.name ∉ s.parameters.names ∧ p.head.name ∉ s.definitions.names ∧
          p.transition = none) ∨
        (p.head.name ∈ s.definitions.names ∧ p.head.kind = .parameter ∧
          p.transition = some .demote) ∨
        (p.head.name ∈ s.parameters.names ∧ p.head.kind = .function ∧
          p.transition = some .promote)) := by
  have hchange := hp.planned.change
  unfold Plan.change at hchange
  by_cases hlive : (s.contextFor raw redefine).live.contains p.head.name = true
  · have hnone : (s.contextFor raw redefine).replaced = none := by
      cases hr : (s.contextFor raw redefine).replaced with
      | none => rfl
      | some n =>
        obtain ⟨-, -, rfl, -⟩ := h.replaced_eq_some hp hr
        exact absurd hr.symm (h.live_contains.mp hlive).2
    refine Or.inr ⟨hnone, Or.inr ?_⟩
    rw [if_neg (by simp [hkind, hlive])] at hchange
    split at hchange
    case h_1 hk hkind' =>
      refine Or.inr ⟨?_, hkind', (Except.ok.inj hchange).symm⟩
      simpa using h.kind?_eq_some hk
    case h_2 hk hkind' =>
      refine Or.inl ⟨?_, hkind', (Except.ok.inj hchange).symm⟩
      simpa using h.kind?_eq_some hk
    case h_3 => simp at hchange
  · rw [if_pos (by simp [hlive])] at hchange
    have htransition := (Except.ok.inj hchange).symm
    cases hr : (s.contextFor raw redefine).replaced with
    | some n =>
      obtain ⟨-, -, rfl, -⟩ := h.replaced_eq_some hp hr
      exact Or.inl ⟨rfl, htransition⟩
    | none =>
      rw [h.live_contains, hr] at hlive
      simp only [ne_eq, reduceCtorEq, not_false_eq_true, and_true, not_or] at hlive
      exact Or.inr ⟨rfl, Or.inl ⟨hlive.1, hlive.2, htransition⟩⟩

end Formulary.Sheet
