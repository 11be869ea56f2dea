import Formulary.Proofs.Sheet.Effect

/-! # A definition of a new name

A text that defines a name not in use, or a plot, replaces nothing. If it is
accepted, its parameters, its definition and its node stand after those there were.
-/

namespace Formulary

/-- A parameter, but for its id and its role. -/
def Parameter.substance (q : Parameter) : Parameter := { q with id := [], role := none }

theorem Parameter.substance_drawnOver (axis : Option Name) (q : Parameter) :
    (q.drawnOver axis).substance = q.substance := by
  unfold drawnOver
  split <;> rfl

/-- What is created for a missing name. -/
def Parameter.auto (name : Name) : Parameter :=
  (ParameterBook.entryFor 0 name usualValue { source := autoSource }).substance

/-- What is created for a number under a name. -/
def Parameter.own (name : Name) (value : Double) : Parameter :=
  (ParameterBook.entryFor 0 name value {}).substance

/-- The parameters of a book, but for their ids and roles. -/
def ParameterBook.substance (b : ParameterBook) : List Parameter :=
  b.entries.map Parameter.substance

theorem ParameterBook.names_substance (b : ParameterBook) :
    b.substance.map Parameter.name = b.names := by
  rw [ParameterBook.substance, List.map_map]
  rfl

theorem ParameterBook.substance_extend (b : ParameterBook) (name : Name) (value : Double) :
    (b.extend name value {}).substance = b.substance ++ [Parameter.own name value] :=
  List.map_append

theorem ParameterBook.substance_autos (b : ParameterBook) (names : List Name) :
    (b.autos names).substance = b.substance ++ names.map Parameter.auto := by
  induction names generalizing b with
  | nil => exact (List.append_nil _).symm
  | cons name names ih =>
    have hstep : (b.autos (name :: names)).substance =
        (b.autos [name]).substance ++ names.map Parameter.auto := ih _
    have hfirst : (b.autos [name]).substance = b.substance ++ [Parameter.auto name] :=
      List.map_append
    rw [hstep, hfirst, List.append_assoc, List.singleton_append, List.map_cons]

namespace Sheet

variable {s t : Sheet} {raw : Text} {name : Name} {p : Plan}

/-- The sheet with what a plan for a new name brings. -/
def take (s : Sheet) (raw : Text) (p : Plan) : Sheet :=
  if p.head.kind = .parameter then
    { s with parameters := (s.parameters.autos p.missing).extend p.head.name p.value {} }
  else (s.withAutos p.missing).define (s.definitionFor p raw)
    (markIndependent (s.parameters.autos p.missing) (axisFor p) p.head.formals)

/-- The definition that a plan brings, unless it binds a number. -/
def definitionsFor (s : Sheet) (raw : Text) (p : Plan) : List Definition :=
  if p.head.kind = .parameter then [] else [s.definitionFor p raw]

/-- The parameters that a plan brings. -/
def parametersFor (p : Plan) : List Parameter :=
  p.missing.map Parameter.auto ++
    if p.head.kind = .parameter then [Parameter.own p.head.name p.value] else []

/-- A plan for a name that is not in use, or for a plot. -/
structure Offers (s : Sheet) (raw : Text) (p : Plan) : Prop where
  plans : s.Plans raw false p
  new : p.head.kind ≠ .anonymous →
    p.head.name ∉ s.parameters.names ∧ p.head.name ∉ s.definitions.names

/-- Nothing stands in the way of what a plan brings. -/
structure Takes (s : Sheet) (raw : Text) (p : Plan) : Prop where
  acyclic : (s.take raw p).graph.Acyclic
  value : p.head.kind = .parameter → p.head.name ∉ p.missing ∧ p.value.isFinite = true

/-! ### Accepted and taken -/

theorem Offers.transition (ho : s.Offers raw p) (h : s.Consistent) : p.transition = none := by
  have hchange := ho.plans.planned.change
  have hlive : p.head.kind = .anonymous ∨
      (s.contextFor raw false).live.contains p.head.name = false := by
    by_cases hk : p.head.kind = .anonymous
    · exact Or.inl hk
    · refine Or.inr (Bool.eq_false_iff.mpr fun hc => ?_)
      rcases (h.live_contains.mp hc).1 with hn | hn
      · exact (ho.new hk).1 hn
      · exact (ho.new hk).2 hn
  rw [Plan.change, if_pos (by simpa using hlive)] at hchange
  exact (Except.ok.inj hchange).symm

theorem replaced_false (s : Sheet) (raw : Text) : (s.contextFor raw false).replaced = none := by
  rw [contextFor_false]

/-- A number is stored if its name is not one that it mentions itself. -/
theorem Consistent.store_number (h : s.Consistent) (ho : s.Offers raw p)
    (hk : p.head.kind = .parameter) : (s.withAutos p.missing).store p raw none =
      if p.head.name ∈ p.missing then
        (.error (.parameterExists p.head.name), s.withAutos p.missing)
      else if p.value.isFinite then (.ok (), s.take raw p)
      else (.error (.notFinite p.head.name), s.withAutos p.missing) := by
  obtain ⟨hparameter, hfunction⟩ := ho.new (by simp [hk])
  have hn := spelled_head ho.plans (by simp [hk])
  have hl := h.toLinked.withAutos p.missing
  have hkeyed := h.parameters.autos (h.fresh_of_plans ho.plans)
  have hwithout : (s.withAutos p.missing).without p.head.name = s.withAutos p.missing :=
    hl.without_eq_self (by rw [hl.mem_nodes_iff hn]; exact hfunction)
  have hmem : p.head.name ∈ (s.withAutos p.missing).parameters.names ↔
      p.head.name ∈ p.missing := by
    rw [mem_names_withAutos, or_iff_right hparameter]
  have htake : s.take raw p = { s.withAutos p.missing with
      parameters := (s.withAutos p.missing).parameters.extend p.head.name p.value {} } := if_pos hk
  rw [store, if_pos hk, hl.storeParameter_of_free hkeyed hn fun hin => absurd hin hfunction,
    hwithout, htake]
  by_cases hm : p.head.name ∈ p.missing
  · rw [if_pos (hmem.mpr hm), if_pos hm]
    rfl
  · rw [if_neg (mt hmem.mp hm), if_neg hm]

/-- A definition is stored if it closes no chain of references. -/
theorem Consistent.store_definition (h : s.Consistent) (ho : s.Offers raw p)
    (hk : p.head.kind ≠ .parameter) : (s.withAutos p.missing).store p raw none =
      match s.graph.probe (s.definitionFor p raw).node (s.definitionFor p raw).references with
      | some cycle => (.error (.cycle cycle), (s.withAutos p.missing).withNewId)
      | none => (.ok (), s.take raw p) := by
  have hl := h.toLinked.withAutos p.missing
  have htakes := h.takesNode ho.plans hk
  rw [replaced_false] at htakes
  have hcheck : (if p.head.kind = .anonymous then .ok ()
      else (s.withAutos p.missing).checkUsers p.head.name p.head.formals.length) = .ok () := by
    split
    · rfl
    case isFalse hnamed =>
      have hfind : (s.withAutos p.missing).definitions.find? p.head.name = none :=
        DefinitionBook.find?_eq_none.mpr (ho.new hnamed).2
      have hparameter : (s.withAutos p.missing).parameters.contains p.head.name = false := by
        rw [Bool.eq_false_iff, ne_eq, ParameterBook.contains_iff, mem_names_withAutos, not_or]
        exact ⟨(ho.new hnamed).1, ho.plans.name_not_mem_missing hk⟩
      unfold checkUsers
      simp only [hfind, hparameter, Bool.not_false, Bool.true_or, if_true]
  have hcleared : (s.withAutos p.missing).clearedParameters p none =
      s.parameters.autos p.missing := by
    rw [clearedParameters, ho.transition h, if_neg (by simp)]
    rfl
  rw [store, if_neg hk, hl.storeDefinition_of_takesNode htakes, hcheck, hcleared, take, if_neg hk]
  rfl

theorem acyclic_take (hk : p.head.kind ≠ .parameter) : (s.take raw p).graph.Acyclic ↔
    s.graph.probe (s.definitionFor p raw).node (s.definitionFor p raw).references = none := by
  have hgraph : (s.take raw p).graph = (s.graph.erase (s.definitionFor p raw).node).insert
      (s.definitionFor p raw).node (s.definitionFor p raw).references := by
    rw [take, if_neg hk]
    rfl
  rw [hgraph, Graph.acyclic_insert_erase, Graph.probe_eq_none_iff]

/-- What is offered is accepted if nothing stands in the way. -/
theorem Consistent.enter_of_takes (h : s.Consistent) (ho : s.Offers raw p) (ht : s.Takes raw p) :
    ∃ a, s.enter raw false = (.accepted a, s.take raw p) := by
  have hstore : (s.withAutos p.missing).store p raw none = (.ok (), s.take raw p) := by
    by_cases hk : p.head.kind = .parameter
    · rw [h.store_number ho hk, if_neg (ht.value hk).1, if_pos (ht.value hk).2]
    · rw [h.store_definition ho hk, (acyclic_take hk).mp ht.acyclic]
  rw [h.enter_of_fresh ho.plans (h.fresh_of_plans ho.plans), replaced_false, hstore]
  exact ⟨_, rfl⟩

/-- Nothing stood in the way of what is accepted. -/
theorem Consistent.takes_of_accepted (h : s.Consistent) (ho : s.Offers raw p)
    (ha : (s.enter raw false).1.isAccepted = true) : s.Takes raw p := by
  rw [h.enter_of_fresh ho.plans (h.fresh_of_plans ho.plans), replaced_false] at ha
  by_cases hk : p.head.kind = .parameter
  · have hgraph : (s.take raw p).graph = s.graph := by rw [take, if_pos hk]
    refine ⟨hgraph ▸ h.acyclic, fun _ => ?_⟩
    rw [h.store_number ho hk] at ha
    by_cases hm : p.head.name ∈ p.missing
    · rw [if_pos hm] at ha
      cases ha
    · rw [if_neg hm] at ha
      by_cases hv : p.value.isFinite = true
      · exact ⟨hm, hv⟩
      · rw [if_neg hv] at ha
        cases ha
  · refine ⟨(acyclic_take hk).mpr ?_, fun hk' => absurd hk' hk⟩
    rw [h.store_definition ho hk] at ha
    cases hprobe : s.graph.probe (s.definitionFor p raw).node
        (s.definitionFor p raw).references with
    | none => rfl
    | some cycle =>
      rw [hprobe] at ha
      cases ha

theorem Consistent.taken (h : s.Consistent) (ho : s.Offers raw p) (ht : s.Takes raw p) :
    (s.take raw p).Consistent := by
  obtain ⟨a, ha⟩ := h.enter_of_takes ho ht
  have hstep := h.of_step (h.step_enter raw false)
  rwa [ha] at hstep

/-! ### What is taken -/

theorem reading_take : (s.take raw p).reading = s.reading := by
  unfold take
  split <;> rfl

theorem Consistent.substance_take (h : s.Consistent) (hp : s.Plans raw false p) :
    (s.take raw p).parameters.substance = s.parameters.substance ++ parametersFor p := by
  unfold take parametersFor
  split
  · rw [ParameterBook.substance_extend, ParameterBook.substance_autos, List.append_assoc]
  · have hkeyed := h.parameters.autos (h.fresh_of_plans hp)
    rw [List.append_nil, ← ParameterBook.substance_autos]
    show (markIndependent _ _ _).substance = _
    rw [ParameterBook.substance, entries_markIndependent hkeyed, List.map_map]
    exact List.map_congr_left fun q _ => Parameter.substance_drawnOver _ q

theorem Consistent.without_offered (h : s.Consistent) (ho : s.Offers raw p) :
    s.without (s.definitionFor p raw).node = s := by
  apply h.toLinked.without_eq_self
  rw [node_definitionFor]
  split
  · exact h.toLinked.newId_not_mem_nodes
  case isFalse hnamed =>
    rw [h.mem_nodes_iff (spelled_head ho.plans hnamed)]
    exact (ho.new hnamed).2

theorem Consistent.entries_take (h : s.Consistent) (ho : s.Offers raw p) :
    (s.take raw p).definitions.entries = s.definitions.entries ++ s.definitionsFor raw p := by
  unfold take definitionsFor
  split
  · exact (List.append_nil _).symm
  · have hwithout := congrArg (fun u : Sheet => u.definitions.entries) (h.without_offered ho)
    exact congrArg (· ++ [s.definitionFor p raw]) hwithout

theorem nextId_take : (s.take raw p).definitions.nextId =
    s.definitions.nextId + (s.definitionsFor raw p).length := by
  unfold take definitionsFor
  split <;> rfl

theorem Linked.nodes_take (h : s.Linked) : (s.take raw p).graph.nodes =
    (s.take raw p).definitions.entries.map fun d => (d.node, d.references) := by
  unfold take
  split
  · exact h.graph
  · exact (h.withAutos p.missing).nodes_define _ _

theorem Consistent.mem_names_take (h : s.Consistent) (hp : s.Plans raw false p) :
    name ∈ (s.take raw p).parameters.names ↔ name ∈ s.parameters.names ∨ name ∈ p.missing ∨
      p.head.kind = .parameter ∧ name = p.head.name := by
  have hauto : ∀ names : List Name, (names.map Parameter.auto).map Parameter.name = names :=
    fun names => (List.map_map ..).trans (List.map_id _)
  rw [← ParameterBook.names_substance, h.substance_take hp, List.map_append,
    ParameterBook.names_substance, parametersFor, List.map_append, hauto, List.mem_append,
    List.mem_append]
  by_cases hk : p.head.kind = .parameter
  · simp [hk, Parameter.own, Parameter.substance, ParameterBook.entryFor]
  · simp [hk]

theorem Consistent.named_take (h : s.Consistent) (ho : s.Offers raw p) :
    (s.take raw p).definitions.named = s.definitions.named ++
      if p.head.kind = .function then [s.definitionFor p raw] else [] := by
  rw [DefinitionBook.named, h.entries_take ho, List.filter_append, definitionsFor]
  cases hk : p.head.kind with
  | parameter => rfl
  | function => simp [isAnonymous_definitionFor, hk, DefinitionBook.named]
  | anonymous => simp [isAnonymous_definitionFor, hk, DefinitionBook.named]

theorem Consistent.mem_functions_take (h : s.Consistent) (ho : s.Offers raw p) :
    name ∈ (s.take raw p).definitions.names ↔
      name ∈ s.definitions.names ∨ p.head.kind = .function ∧ name = p.head.name := by
  rw [DefinitionBook.names, h.named_take ho, List.map_append, List.mem_append]
  by_cases hk : p.head.kind = .function
  · simp [hk, DefinitionBook.names, definitionFor]
  · simp [hk, DefinitionBook.names]

/-- In use are the names there were, what was missing, and the name that is defined. -/
theorem Consistent.live_take (h : s.Consistent) (ho : s.Offers raw p)
    (ht : (s.take raw p).Consistent) : (s.take raw p).liveNames.contains name = true ↔
      s.liveNames.contains name = true ∨ name ∈ p.missing ∨
        p.head.kind ≠ .anonymous ∧ name = p.head.name := by
  rw [ht.contains_liveNames, h.contains_liveNames, h.mem_names_take ho.plans,
    h.mem_functions_take ho]
  cases hk : p.head.kind with
  | parameter => simp; tauto
  | function => simp; tauto
  | anonymous => simp; tauto

end Sheet

end Formulary
