import Formulary.Proofs.Binding.Protocol
import Formulary.Proofs.Sheet.Context

/-! # Binding on a sheet

The missing names of a plan become parameters in turn. Binding fails only before
the first of them, or at one that is a parameter already; taking away what was
created then leaves the book as it was but for its counter.
-/

namespace Formulary.Sheet

variable {s t : Sheet} {raw : Text} {redefine : Bool} {name : Name} {names : List Name} {p : Plan}
  {b : ParameterBook}

theorem provider_ask (hk : b.Keyed) (live : LiveNames) (name : Name) :
    (name ∈ b.names ∧ ∃ reason, (provider live).ask name b = (.failed reason, b)) ∨
      (name ∉ b.names ∧ ∃ id, (provider live).ask name b = (.created id, b.autos [name])) := by
  by_cases hn : name ∈ b.names
  · refine Or.inl ⟨hn, (SheetError.parameterExists name).message, ?_⟩
    simp only [provider, hk.createAuto_eq, if_pos hn]
  · refine Or.inr ⟨hn, ParameterBook.idFor b.nextId, ?_⟩
    simp only [provider, hk.createAuto_eq, if_neg hn]
    rfl

/-- Asking for names creates them in order, up to the first that is taken. -/
theorem askAll_provider (hk : b.Keyed) (hn : names.Nodup) (live : LiveNames)
    (resolved : List (Name × Text)) :
    ((b.names ++ names).Nodup ∧ ∃ resolved',
      Binding.askAll (provider live) resolved names b = (.ok resolved', b.autos names) ∧
        resolved'.map Prod.fst = resolved.map Prod.fst ++ names) ∨
    (¬ (b.names ++ names).Nodup ∧ ∃ done bad reason, (b.names ++ done).Nodup ∧
      Binding.askAll (provider live) resolved names b =
        (.error (Binding.unresolved [bad] (resolved.map Prod.fst ++ done) reason bad),
          b.autos done)) := by
  induction names generalizing b resolved with
  | nil => exact Or.inl ⟨by simpa using hk.names, resolved, rfl, by simp⟩
  | cons name rest ih =>
    rcases provider_ask hk live name with ⟨hmem, reason, hask⟩ | ⟨hmem, id, hask⟩
    · refine Or.inr ⟨fun hnodup => ?_, [], name, some reason, by simpa using hk.names, ?_⟩
      · exact (List.nodup_append.mp hnodup).2.2 _ hmem _ List.mem_cons_self rfl
      · rw [Binding.askAll, hask, List.append_nil]
        rfl
    · have hkeyed : (b.autos [name]).Keyed := by
        apply hk.autos
        rw [List.nodup_append_comm, List.singleton_append]
        exact List.nodup_cons.mpr ⟨hmem, hk.names⟩
      have hnames : (b.autos [name]).names = b.names ++ [name] := ParameterBook.names_autos
      have hstep : Binding.askAll (provider live) resolved (name :: rest) b =
          Binding.askAll (provider live) (resolved ++ [(name, id)]) rest (b.autos [name]) := by
        rw [Binding.askAll, hask]
      rw [hstep]
      rcases ih hkeyed (List.nodup_cons.mp hn).2 (resolved ++ [(name, id)]) with
        ⟨hfresh, resolved', hok, hcreated⟩ | ⟨htaken, done, bad, reason, hdone, herror⟩
      · rw [hnames, List.append_assoc, List.singleton_append] at hfresh
        exact Or.inl ⟨hfresh, resolved', hok, by simp [hcreated]⟩
      · rw [hnames, List.append_assoc, List.singleton_append] at htaken hdone
        have hautos : (b.autos [name]).autos done = b.autos (name :: done) := rfl
        rw [hautos] at herror
        exact Or.inr ⟨htaken, name :: done, bad, reason, hdone, by simpa using herror⟩

/-! ### The missing names -/

theorem Plans.nodup_missing (hp : s.Plans raw redefine p) : p.missing.Nodup := by
  rw [hp.planned.missing, hp.planned.dependencies]
  exact (Text.nodup_dedup _).filter _

theorem Plans.spelled_of_mem_dependencies (hp : s.Plans raw redefine p)
    (h : name ∈ p.dependencies) : Spelled name := by
  rw [hp.planned.dependencies] at h
  exact Formula.spelled_of_mem_freeSymbols h

theorem Plans.mem_missing (hp : s.Plans raw redefine p) : name ∈ p.missing ↔
    name ∈ p.dependencies ∧ ¬ (s.contextFor raw redefine).live.contains name = true := by
  rw [hp.planned.missing, List.mem_filter, Bool.not_eq_true', Bool.not_eq_true]

/-- What is missing is not in use, unless it is replaced. -/
theorem Consistent.not_mem_of_missing (h : s.Consistent) (hp : s.Plans raw redefine p)
    (hm : name ∈ p.missing) (hr : some name ≠ (s.contextFor raw redefine).replaced) :
    name ∉ s.parameters.names ∧ name ∉ s.definitions.names := by
  have hlive := (hp.mem_missing.mp hm).2
  rw [h.live_contains] at hlive
  exact ⟨fun hn => hlive ⟨Or.inl hn, hr⟩, fun hn => hlive ⟨Or.inr hn, hr⟩⟩

/-- Every dependency of a plan is created or in use. -/
theorem Consistent.dependency_cases (h : s.Consistent) (hp : s.Plans raw redefine p)
    (hd : name ∈ p.dependencies) : name ∈ p.missing ∨
      ((name ∈ s.parameters.names ∨ name ∈ s.definitions.names) ∧
        some name ≠ (s.contextFor raw redefine).replaced) := by
  by_cases hlive : (s.contextFor raw redefine).live.contains name = true
  · exact Or.inr (h.live_contains.mp hlive)
  · exact Or.inl (hp.mem_missing.mpr ⟨hd, hlive⟩)

/-- The missing names can be created. -/
def Fresh (s : Sheet) (p : Plan) : Prop := (s.parameters.names ++ p.missing).Nodup

theorem Consistent.fresh (h : s.Consistent) (hp : s.Plans raw redefine p)
    (hname : p.head.name ∈ p.missing → p.head.name ∉ s.parameters.names) : s.Fresh p := by
  refine List.nodup_append.mpr ⟨h.parameters.names, hp.nodup_missing, ?_⟩
  rintro n hn _ hm rfl
  by_cases hr : some n = (s.contextFor raw redefine).replaced
  · obtain ⟨-, -, rfl, -⟩ := h.replaced_eq_some hp hr.symm
    exact hname hm hn
  · exact (h.not_mem_of_missing hp hm hr).1 hn

/-- When nothing is replaced, what is missing can be created. -/
theorem Consistent.fresh_of_plans (h : s.Consistent) (hp : s.Plans raw false p) : s.Fresh p := by
  refine h.fresh hp fun hm => (h.not_mem_of_missing hp hm ?_).1
  rw [contextFor_false]
  exact Option.some_ne_none _

/-! ### Binding -/

/-- The sheet with the missing names as parameters. -/
def withAutos (s : Sheet) (names : List Name) : Sheet :=
  { s with parameters := s.parameters.autos names }

/-- Binding in the context that the sheet gives a text. -/
def bound (s : Sheet) (raw : Text) (redefine : Bool) :
    Except BindError (Bound Text) × ParameterBook :=
  bind s.reading (s.contextFor raw redefine).live (s.contextFor raw redefine).arities
    (some (provider (s.contextFor raw redefine).live)) raw s.parameters

theorem Consistent.bound_of_fresh (h : s.Consistent) (hp : s.Plans raw redefine p)
    (hf : s.Fresh p) : ∃ b : Bound Text,
      s.bound raw redefine = (.ok b, s.parameters.autos p.missing) ∧ b.plan = p ∧
        b.created = p.missing := by
  rcases askAll_provider h.parameters hp.nodup_missing (s.contextFor raw redefine).live [] with
    ⟨-, resolved, hask, hresolved⟩ | ⟨htaken, -⟩
  · refine ⟨⟨p, resolved⟩, ?_, rfl, by simpa [Bound.created] using hresolved⟩
    have hplan : plan s.reading (s.contextFor raw redefine).live
        (s.contextFor raw redefine).arities raw = .ok p := hp
    have hfinish := Binding.finish_of_plan hplan (by simpa using hresolved)
    rw [bound, bind, hplan]
    simp only [Binding.ofPlan, hask]
    exact Prod.ext hfinish rfl
  · exact absurd hf htaken

/-- Planning fails before anything is created. -/
theorem createdBefore_of_plan {r : Reading} {live : LiveNames} {arities : Formula.Arities}
    {e : BindError} (h : plan r live arities raw = .error e) : createdBefore e = [] := by
  have hplanning := fails_plan e h
  cases e with
  | unresolved => exact absurd hplanning (by simp [BindError.isPlanning])
  | _ => rfl

/-- A failed binding can be rolled back. -/
theorem Consistent.bound_of_not_fresh (h : s.Consistent)
    (hf : ∀ p, s.Plans raw redefine p → ¬ s.Fresh p) :
    ∃ e, s.bound raw redefine = (.error e, s.parameters.autos (createdBefore e)) ∧
      (s.parameters.names ++ createdBefore e).Nodup := by
  cases hplan : plan s.reading (s.contextFor raw redefine).live
      (s.contextFor raw redefine).arities raw with
  | error e =>
    have hnone := createdBefore_of_plan hplan
    refine ⟨e, ?_, by simpa [hnone] using h.parameters.names⟩
    rw [bound, bind, hplan, hnone]
    rfl
  | ok p =>
    have hp : s.Plans raw redefine p := hplan
    rcases askAll_provider h.parameters hp.nodup_missing (s.contextFor raw redefine).live [] with
      ⟨hfresh, -⟩ | ⟨-, done, bad, reason, hdone, hask⟩
    · exact absurd hfresh (hf p hp)
    · refine ⟨Binding.unresolved [bad] done reason bad, ?_, hdone⟩
      rw [List.map_nil, List.nil_append] at hask
      rw [bound, bind, hplan]
      simp only [Binding.ofPlan, hask]
      rfl

end Formulary.Sheet
