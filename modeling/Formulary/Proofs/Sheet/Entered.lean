import Formulary.Proofs.Sheet.Stored

/-! # What entering a text does

A text is refused, and then nothing differs but the counters, except where a
function had given way to a number that no parameter can hold. Or it is accepted,
and then a parameter or a definition has the name. Everything that is known of
entering a text follows from `Entered`.
-/

namespace Formulary

/-- What is reported of a plan that was stored. -/
def Plan.accepted (p : Plan) (warnings : List Text) : Accepted where
  kind := p.head.kind
  name := p.head.name
  rhs := p.rhs
  formals := p.head.formals
  dependencies := p.dependencies
  created := p.missing
  transition := p.transition
  warnings := warnings

theorem Outcome.ofBound_eq {ι : Type} {b : Bound ι} (hb : b.created = b.plan.missing)
    (warnings : List Text) : ofBound b warnings = .accepted (b.plan.accepted warnings) := by
  rw [ofBound, hb]
  rfl

namespace Sheet

variable {s t u : Sheet} {raw : Text} {redefine : Bool} {name : Name} {names : List Name} {p : Plan}

/-- Nothing differs but how far the counters went. -/
structure SameContent (s t : Sheet) : Prop where
  reading : t.reading = s.reading
  parameters : t.parameters.entries = s.parameters.entries
  definitions : t.definitions.entries = s.definitions.entries
  graph : t.graph = s.graph
  parameterIds : s.parameters.nextId ≤ t.parameters.nextId
  definitionIds : s.definitions.nextId ≤ t.definitions.nextId

/-- A function that no other definition calls gives way to a number that is not finite. -/
structure Loses (s : Sheet) (raw : Text) (redefine : Bool) (p : Plan) : Prop where
  plans : s.Plans raw redefine p
  kind : p.head.kind = .parameter
  function : p.head.name ∈ s.definitions.names
  free : ¬ s.CalledByOthers p.head.name
  value : p.value.isFinite = false
  notMissing : p.head.name ∉ p.missing

/-- A parameter has the name, and no function. -/
structure BindsParameter (s : Sheet) (p : Plan) (t : Sheet) : Prop where
  kind : p.head.kind = .parameter
  reading : t.reading = s.reading
  definitions : t.definitions = (s.without p.head.name).definitions
  graph : t.graph = (s.without p.head.name).graph
  free : p.head.name ∈ s.definitions.names → ¬ s.CalledByOthers p.head.name
  keyed : t.parameters.Keyed
  names : ∀ n, n ∈ t.parameters.names ↔
    n ∈ s.parameters.names ∨ n ∈ p.missing ∨ n = p.head.name

/-- The definition is stored in place of what had its name. -/
structure BindsDefinition (s : Sheet) (raw : Text) (p : Plan) (t : Sheet) : Prop where
  kind : p.head.kind ≠ .parameter
  reading : t.reading = s.reading
  definitions : t.definitions = ⟨(s.without (s.definitionFor p raw).node).definitions.entries ++
    [s.definitionFor p raw], s.definitions.nextId + 1⟩
  graph : t.graph = (s.graph.erase (s.definitionFor p raw).node).insert
    (s.definitionFor p raw).node (s.definitionFor p raw).references
  probe : s.graph.probe (s.definitionFor p raw).node (s.definitionFor p raw).references = none
  users : p.head.kind ≠ .anonymous →
    (s.withAutos p.missing).checkUsers p.head.name p.head.formals.length = .ok ()
  keyed : t.parameters.Keyed
  names : ∀ n, n ∈ t.parameters.names ↔ (n ∈ s.parameters.names ∨ n ∈ p.missing) ∧
    (p.head.kind ≠ .anonymous → n ≠ p.head.name)

/-- The four ways that entering a text ends. -/
inductive Entered (s : Sheet) (raw : Text) (redefine : Bool) : Outcome × Sheet → Prop
  | unchanged {r : Refusal} {t : Sheet} (hkept : ∀ p, ¬ s.Loses raw redefine p)
      (hsame : SameContent s t) : Entered s raw redefine (.refused r, t)
  | lost {p : Plan} {r : Refusal} {t : Sheet} (hl : s.Loses raw redefine p)
      (hsame : SameContent (s.without p.head.name) t) : Entered s raw redefine (.refused r, t)
  | parameter {p : Plan} {a : Accepted} {t : Sheet} (hp : s.Plans raw redefine p)
      (hb : s.BindsParameter p t) : Entered s raw redefine (.accepted a, t)
  | definition {p : Plan} {a : Accepted} {t : Sheet} (hp : s.Plans raw redefine p)
      (hb : s.BindsDefinition raw p t) : Entered s raw redefine (.accepted a, t)

/-! ### Taking back -/

/-- Rolled back, the sheet is as it was before the missing names were created. -/
theorem sameContent_rollback (hk : s.parameters.Keyed)
    (hn : (s.parameters.names ++ names).Nodup) (hr : t.reading = s.reading)
    (hp : t.parameters = s.parameters.autos names)
    (hd : t.definitions.entries = s.definitions.entries) (hg : t.graph = s.graph)
    (hid : s.definitions.nextId ≤ t.definitions.nextId) : SameContent s (t.rollback names) := by
  obtain ⟨hentries, hids⟩ := hk.deleteAll_autos hn
  exact ⟨hr, by rw [rollback, hp, hentries], hd, hg, by rw [rollback, hp]; exact hids, hid⟩

theorem Plans.unique {p' : Plan} (hp : s.Plans raw redefine p) (hp' : s.Plans raw redefine p') :
    p = p' :=
  Except.ok.inj (hp.symm.trans hp')

theorem Consistent.fresh_of_loses (h : s.Consistent) (hl : s.Loses raw redefine p) : s.Fresh p :=
  h.fresh hl.plans fun hm => absurd hm hl.notMissing

/-! ### Entering -/

theorem enter_eq (s : Sheet) (raw : Text) (redefine : Bool) : s.enter raw redefine =
    match s.bound raw redefine with
    | (.error e, parameters) => (.ofError e, rollback { s with parameters } (createdBefore e))
    | (.ok b, parameters) =>
      match store { s with parameters } b.plan raw (s.contextFor raw redefine).replaced with
      | (.error e, s) => (.refused ⟨e.message, e.code, [], []⟩, s.rollback b.created)
      | (.ok (), s) => (.ofBound b (s.ambiguities b.plan.rhs), s) := rfl

/-- If binding fails, nothing has changed. -/
theorem Consistent.entered_of_not_fresh (h : s.Consistent)
    (hf : ∀ p, s.Plans raw redefine p → ¬ s.Fresh p) :
    s.Entered raw redefine (s.enter raw redefine) := by
  obtain ⟨e, hbound, hn⟩ := h.bound_of_not_fresh hf
  rw [enter_eq, hbound]
  refine .unchanged (fun p hl => hf p hl.plans (h.fresh_of_loses hl)) ?_
  exact sameContent_rollback h.parameters hn rfl rfl rfl rfl (Nat.le_refl _)

/-- Entering a plan that can be bound stores it. -/
theorem Consistent.enter_of_fresh (h : s.Consistent) (hp : s.Plans raw redefine p)
    (hf : s.Fresh p) : s.enter raw redefine =
      match (s.withAutos p.missing).store p raw (s.contextFor raw redefine).replaced with
      | (.error e, t) => (.refused ⟨e.message, e.code, [], []⟩, t.rollback p.missing)
      | (.ok (), t) => (.accepted (p.accepted (t.ambiguities p.rhs)), t) := by
  obtain ⟨b, hbound, rfl, hcreated⟩ := h.bound_of_fresh hp hf
  rw [enter_eq, hbound, ← hcreated]
  simp only [Outcome.ofBound_eq hcreated]
  rfl

theorem Linked.withAutos (h : s.Linked) (names : List Name) : (s.withAutos names).Linked :=
  ⟨h.definitions, h.spelled, h.graph, h.acyclic⟩

theorem spelled_head (hp : s.Plans raw redefine p) (hk : p.head.kind ≠ .anonymous) :
    Spelled p.head.name :=
  hp.planned.spelled hk

theorem mem_names_withAutos : name ∈ (s.withAutos names).parameters.names ↔
    name ∈ s.parameters.names ∨ name ∈ names := by
  rw [withAutos, ParameterBook.names_autos, List.mem_append]

/-- A refused plan that takes no function away leaves nothing behind. -/
theorem Consistent.entered_of_kept (h : s.Consistent) (hp : s.Plans raw redefine p)
    (hf : s.Fresh p) (hkept : ¬ s.Loses raw redefine p) {r : Refusal}
    (hr : t.reading = s.reading) (hparameters : t.parameters = s.parameters.autos p.missing)
    (hd : t.definitions.entries = s.definitions.entries) (hg : t.graph = s.graph)
    (hid : s.definitions.nextId ≤ t.definitions.nextId) :
    s.Entered raw redefine (.refused r, t.rollback p.missing) := by
  refine .unchanged (fun p' hlose => ?_) ?_
  · obtain rfl := hp.unique hlose.plans
    exact hkept hlose
  · exact sameContent_rollback h.parameters hf hr hparameters hd hg hid

/-! ### Numbers -/

/-- A name that is free for a parameter or already has one is no function's. -/
theorem Consistent.not_mem_names (h : s.Consistent) (hp : s.Plans raw redefine p)
    (hr : (s.contextFor raw redefine).replaced = none)
    (hmem : name ∈ s.parameters.names ∨ name ∈ p.missing) : name ∉ s.definitions.names := by
  rcases hmem with hmem | hmem
  · exact fun hn => h.disjoint hmem hn
  · exact (h.not_mem_of_missing hp hmem (by simp [hr])).2

theorem resetParameter_names (hk : t.parameters.Keyed) (value : Double) :
    (t.resetParameter name value).parameters.Keyed ∧
      (t.resetParameter name value).parameters.names = t.parameters.names :=
  ⟨hk.modify (fun _ => rfl) fun _ => rfl, hk.names_modify (fun _ => rfl) fun _ => rfl⟩

/-- A function that others call does not give way. -/
theorem Consistent.entered_of_called (h : s.Consistent) (hp : s.Plans raw redefine p)
    (hf : s.Fresh p) (hk : p.head.kind = .parameter) (hname : p.head.name ∈ s.definitions.names)
    (hcalled : s.CalledByOthers p.head.name) :
    s.Entered raw redefine (s.enter raw redefine) := by
  have henter := h.enter_of_fresh hp hf
  obtain ⟨e, he⟩ := (h.toLinked.withAutos p.missing).storeParameter_of_called p
    (s.contextFor raw redefine).replaced hname hcalled
  rw [henter, store, if_pos hk, he]
  exact h.entered_of_kept hp hf (fun hlose => hlose.free hcalled) rfl rfl rfl rfl (Nat.le_refl _)

/-- A name that a parameter has is only given a number again if it is replaced. -/
theorem Consistent.entered_of_parameter (h : s.Consistent) (hp : s.Plans raw redefine p)
    (hf : s.Fresh p) (hk : p.head.kind = .parameter)
    (hfree : p.head.name ∈ s.definitions.names → ¬ s.CalledByOthers p.head.name)
    (hin : p.head.name ∈ (s.withAutos p.missing).parameters.names) :
    s.Entered raw redefine (s.enter raw redefine) := by
  have hn := spelled_head hp (by simp [hk])
  have hl := h.toLinked.withAutos p.missing
  have hkeyed : (s.withAutos p.missing).parameters.Keyed := h.parameters.autos hf
  have henter := h.enter_of_fresh hp hf
  rw [store, if_pos hk, hl.storeParameter_of_free hkeyed hn hfree, if_pos hin] at henter
  cases hr : (s.contextFor raw redefine).replaced with
  | some n =>
    rw [hr, if_pos Option.isSome_some] at henter
    rw [henter]
    obtain ⟨hkeyed', hnames⟩ := resetParameter_names (t := (s.withAutos p.missing).without
      p.head.name) hkeyed p.value
    refine .parameter hp ⟨hk, rfl, rfl, rfl, hfree, hkeyed', fun n => ?_⟩
    rw [hnames, ← or_assoc, ← mem_names_withAutos]
    refine ⟨Or.inl, ?_⟩
    rintro (hn | rfl)
    · exact hn
    · exact hin
  | none =>
    have hnone := h.not_mem_names hp hr (mem_names_withAutos.mp hin)
    rw [hr, if_neg (by simp)] at henter
    rw [henter, hl.without_eq_self (by rw [hl.mem_nodes_iff hn]; exact hnone)]
    exact h.entered_of_kept hp hf (fun hlose => hnone hlose.function) rfl rfl rfl rfl
      (Nat.le_refl _)

/-- A name that no parameter has is given a finite number; any other number is refused. -/
theorem Consistent.entered_of_not_parameter (h : s.Consistent) (hp : s.Plans raw redefine p)
    (hf : s.Fresh p) (hk : p.head.kind = .parameter)
    (hfree : p.head.name ∈ s.definitions.names → ¬ s.CalledByOthers p.head.name)
    (hin : p.head.name ∉ (s.withAutos p.missing).parameters.names) :
    s.Entered raw redefine (s.enter raw redefine) := by
  have hn := spelled_head hp (by simp [hk])
  have hl := h.toLinked.withAutos p.missing
  have hkeyed : (s.withAutos p.missing).parameters.Keyed := h.parameters.autos hf
  have henter := h.enter_of_fresh hp hf
  rw [store, if_pos hk, hl.storeParameter_of_free hkeyed hn hfree, if_neg hin] at henter
  by_cases hv : p.value.isFinite = true
  · rw [if_pos hv] at henter
    rw [henter]
    refine .parameter hp ⟨hk, rfl, rfl, rfl, hfree, hkeyed.extend hin, fun n => ?_⟩
    rw [ParameterBook.names_extend, List.mem_append, List.mem_singleton, mem_names_withAutos,
      or_assoc]
  · rw [if_neg hv] at henter
    rw [henter]
    by_cases hname : p.head.name ∈ s.definitions.names
    · refine .lost ⟨hp, hk, hname, hfree hname, by simpa using hv, fun hm => ?_⟩ ?_
      · exact hin (mem_names_withAutos.mpr (Or.inr hm))
      · exact sameContent_rollback h.parameters hf rfl rfl rfl rfl (Nat.le_refl _)
    · rw [hl.without_eq_self (by rw [hl.mem_nodes_iff hn]; exact hname)]
      exact h.entered_of_kept hp hf (fun hlose => hname hlose.function) rfl rfl rfl rfl
        (Nat.le_refl _)

theorem Consistent.entered_parameter (h : s.Consistent) (hp : s.Plans raw redefine p)
    (hf : s.Fresh p) (hk : p.head.kind = .parameter) :
    s.Entered raw redefine (s.enter raw redefine) := by
  by_cases hcalled : p.head.name ∈ s.definitions.names ∧ s.CalledByOthers p.head.name
  · exact h.entered_of_called hp hf hk hcalled.1 hcalled.2
  · have hfree : p.head.name ∈ s.definitions.names → ¬ s.CalledByOthers p.head.name :=
      fun hname hcall => hcalled ⟨hname, hcall⟩
    by_cases hin : p.head.name ∈ (s.withAutos p.missing).parameters.names
    · exact h.entered_of_parameter hp hf hk hfree hin
    · exact h.entered_of_not_parameter hp hf hk hfree hin

/-! ### Definitions -/

theorem keyed_markIndependent {b : ParameterBook} (hk : b.Keyed) (axis : Option Name)
    (formals : List Name) : (markIndependent b axis formals).Keyed ∧
      (markIndependent b axis formals).names = b.names := by
  unfold markIndependent
  split
  · exact ⟨hk, rfl⟩
  · split
    · exact ⟨hk, rfl⟩
    · have hid : ∀ p : Parameter, (if p.source = Parameter.autoSource then
          { p with role := some Parameter.independentRole } else p).id = p.id := by
        intro p
        split <;> rfl
      have hname : ∀ p : Parameter, (if p.source = Parameter.autoSource then
          { p with role := some Parameter.independentRole } else p).name = p.name := by
        intro p
        split <;> rfl
      exact ⟨hk.modify hid hname, hk.names_modify hid hname⟩

theorem Consistent.takesNode (h : s.Consistent) (hp : s.Plans raw redefine p)
    (hk : p.head.kind ≠ .parameter) :
    (s.withAutos p.missing).TakesNode p (s.contextFor raw redefine).replaced where
  spelled := spelled_head hp
  named hr := by
    obtain ⟨n, hn⟩ := Option.isSome_iff_exists.mp hr
    exact (h.replaced_eq_some hp hn).2.1
  new hkind hr := by
    rcases h.change_cases hp hkind with ⟨hr', -⟩ | ⟨-, ⟨-, hn, -⟩ | ⟨-, hk', -⟩ | ⟨hn, -, -⟩⟩
    · simp [hr] at hr'
    · exact hn
    · exact absurd hk' hk
    · exact h.disjoint hn

/-- A definition does not depend on its own name, so its name is not created for it. -/
theorem Plans.name_not_mem_missing (hp : s.Plans raw redefine p) (hk : p.head.kind ≠ .parameter) :
    p.head.name ∉ p.missing :=
  fun hm => (hp.planned.notSelf hk).1 (hp.mem_missing.mp hm).1

/-- Only what defines a name replaces a parameter. -/
theorem Consistent.kind_of_cleared (h : s.Consistent) (hp : s.Plans raw redefine p)
    (hk : p.head.kind ≠ .parameter) {live : Bool} (hc : (decide (p.transition = some .promote) ||
      (s.contextFor raw redefine).replaced.isSome && live) = true) : p.head.kind ≠ .anonymous := by
  rcases (Bool.or_eq_true _ _).mp hc with hc | hc
  · intro hanonymous
    have hchange := hp.planned.change
    rw [Plan.change, if_pos (by simp [hanonymous])] at hchange
    simp [← Except.ok.inj hchange] at hc
  · exact (h.takesNode hp hk).named ((Bool.and_eq_true _ _).mp hc).1

/-- The parameters next to a definition are those there were without its name. -/
theorem Consistent.names_clearedParameters (h : s.Consistent) (hp : s.Plans raw redefine p)
    (hf : s.Fresh p) (hk : p.head.kind ≠ .parameter) :
    ((s.withAutos p.missing).clearedParameters p (s.contextFor raw redefine).replaced).Keyed ∧
      ∀ n, n ∈ ((s.withAutos p.missing).clearedParameters p
        (s.contextFor raw redefine).replaced).names ↔
          (n ∈ s.parameters.names ∨ n ∈ p.missing) ∧
            (p.head.kind ≠ .anonymous → n ≠ p.head.name) := by
  have hkeyed : (s.withAutos p.missing).parameters.Keyed := h.parameters.autos hf
  unfold clearedParameters
  split
  case isTrue hc =>
    have hkind := h.kind_of_cleared hp hk hc
    refine ⟨hkeyed.delete, fun n => ?_⟩
    rw [hkeyed.names_delete, List.mem_filter, mem_names_withAutos, bne_iff_ne]
    simp [hkind]
  case isFalse hc =>
    refine ⟨hkeyed, fun n => ?_⟩
    rw [mem_names_withAutos]
    refine ⟨fun hn => ⟨hn, ?_⟩, And.left⟩
    rintro hkind rfl
    rcases hn with hn | hn
    · rcases h.change_cases hp hkind with ⟨hr, -⟩ | ⟨-, ⟨hno, -, -⟩ | ⟨-, hk', -⟩ | ⟨-, -, ht⟩⟩
      · apply hc
        rw [hr, ParameterBook.contains_iff.mpr (mem_names_withAutos.mpr (Or.inl hn))]
        simp
      · exact hno hn
      · exact hk hk'
      · exact hc (by simp [ht])
    · exact hp.name_not_mem_missing hk hn

theorem Consistent.entered_definition (h : s.Consistent) (hp : s.Plans raw redefine p)
    (hf : s.Fresh p) (hk : p.head.kind ≠ .parameter) :
    s.Entered raw redefine (s.enter raw redefine) := by
  have hl := h.toLinked.withAutos p.missing
  have henter := h.enter_of_fresh hp hf
  rw [store, if_neg hk] at henter
  rcases hl.storeDefinition_cases (h.takesNode hp hk) raw with
    ⟨e, he⟩ | ⟨hprobe, hcheck, hok⟩
  · rw [henter, he]
    exact h.entered_of_kept hp hf (fun hlose => hk hlose.kind) rfl rfl rfl rfl (Nat.le_succ _)
  · rw [henter, hok]
    obtain ⟨hkeyed, hnames⟩ := h.names_clearedParameters hp hf hk
    obtain ⟨hkeyed', hnames'⟩ := keyed_markIndependent hkeyed (axisFor p) p.head.formals
    refine .definition hp ⟨hk, rfl, rfl, rfl, hprobe, hcheck, hkeyed', fun n => ?_⟩
    rw [← hnames n, ← hnames']
    rfl

/-- Entering a text ends in one of the four ways. -/
theorem Consistent.entered (h : s.Consistent) (raw : Text) (redefine : Bool) :
    s.Entered raw redefine (s.enter raw redefine) := by
  by_cases hf : ∃ p, s.Plans raw redefine p ∧ s.Fresh p
  · obtain ⟨p, hp, hf⟩ := hf
    by_cases hk : p.head.kind = .parameter
    · exact h.entered_parameter hp hf hk
    · exact h.entered_definition hp hf hk
  · exact h.entered_of_not_fresh fun p hp hfresh => hf ⟨p, hp, hfresh⟩

end Sheet

end Formulary
