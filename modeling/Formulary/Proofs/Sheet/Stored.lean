import Formulary.Proofs.Sheet.Bound

/-! # Storing what was bound

A number gives its name to a parameter, and a function of that name goes first. A
definition is refused before anything is taken away, or it stands at the end of
the book with its node at the end of the graph.
-/

namespace Formulary

/-- The number that a plan for a parameter binds. -/
def Plan.value (p : Plan) : Double := (Numeral.double? p.rhs).getD Double.zero

namespace Sheet

variable {s t : Sheet} {raw : Text} {replaced : Option Name} {name : Name} {p : Plan}

/-! ### Numbers -/

theorem storeParameter_eq :
    t.storeParameter p replaced = match t.removeFunction p.head.name true with
      | .error e => (.error e, t)
      | .ok u =>
        if replaced.isSome && u.parameters.contains p.head.name then
          (.ok (), u.resetParameter p.head.name p.value)
        else u.createParameter p.head.name p.value := by
  unfold storeParameter
  dsimp only
  by_cases hc : t.definitions.contains p.head.name = true
  · rw [if_pos (by simp [hc])]
    rfl
  · have hname : p.head.name ∉ t.definitions.names := fun hn =>
      hc (DefinitionBook.contains_iff.mpr hn)
    have hremove : t.removeFunction p.head.name true = .ok t := by
      unfold removeFunction
      rw [DefinitionBook.find?_eq_none.mpr hname]
    by_cases hd : p.transition = some .demote
    · rw [if_pos (by simp [hd])]
      rfl
    · rw [if_neg (by simp [hc, hd]), hremove]
      rfl

theorem createParameter_eq (h : t.parameters.Keyed) (name : Name) (value : Double) :
    t.createParameter name value =
      if name ∈ t.parameters.names then (.error (.parameterExists name), t)
      else if value.isFinite then
        (.ok (), { t with parameters := t.parameters.extend name value {} })
      else (.error (.notFinite name), t) := by
  unfold createParameter
  rw [h.create_eq, ParameterBook.check_usual]
  by_cases hn : name ∈ t.parameters.names
  · rw [if_pos hn, if_pos hn]
    rfl
  · rw [if_neg hn, if_neg hn]
    by_cases hv : value.isFinite = true
    · rw [if_pos hv, if_pos hv]
      rfl
    · rw [if_neg hv, if_neg hv]
      rfl

theorem Linked.storeParameter_of_called (h : t.Linked) (p : Plan) (replaced : Option Name)
    (hname : p.head.name ∈ t.definitions.names) (hcalled : t.CalledByOthers p.head.name) :
    ∃ e, t.storeParameter p replaced = (.error e, t) := by
  obtain ⟨e, he⟩ := h.removeFunction_of_called hname hcalled
  exact ⟨e, by rw [storeParameter_eq, he]⟩

/-- A number under the name of no function, or of one that no other definition calls. -/
theorem Linked.storeParameter_of_free (h : t.Linked) (hk : t.parameters.Keyed)
    (hn : Spelled p.head.name)
    (hfree : p.head.name ∈ t.definitions.names → ¬ t.CalledByOthers p.head.name) :
    t.storeParameter p replaced =
      if p.head.name ∈ t.parameters.names then
        if replaced.isSome then (.ok (), (t.without p.head.name).resetParameter p.head.name p.value)
        else (.error (.parameterExists p.head.name), t.without p.head.name)
      else if p.value.isFinite then
        (.ok (), { t.without p.head.name with
          parameters := t.parameters.extend p.head.name p.value {} })
      else (.error (.notFinite p.head.name), t.without p.head.name) := by
  have hparameters : (t.without p.head.name).parameters = t.parameters := rfl
  have hcreate := createParameter_eq (t := t.without p.head.name) hk p.head.name p.value
  rw [hparameters] at hcreate
  rw [storeParameter_eq, h.removeFunction_of_free hn hfree]
  dsimp only
  rw [hcreate, hparameters]
  by_cases hmem : p.head.name ∈ t.parameters.names
  · rw [if_pos hmem, if_pos hmem, ParameterBook.contains_iff.mpr hmem, Bool.and_true]
  · rw [if_neg hmem, if_neg hmem, if_neg]
    simp [ParameterBook.contains_iff, hmem]

/-! ### Definitions -/

/-- The definition that a plan becomes. -/
def definitionFor (t : Sheet) (p : Plan) (raw : Text) : Definition where
  id := DefinitionBook.idFor (p.head.kind = .anonymous) t.definitions.nextId
  name := p.head.name
  kind := p.head.kind
  formals := p.head.formals
  rhs := p.rhs
  source := Text.strip raw
  dependencies := p.dependencies
  calls := t.calledNames p.rhs
  independent := axisFor p

/-- The parameters without the one that a definition replaces. -/
def clearedParameters (t : Sheet) (p : Plan) (replaced : Option Name) : ParameterBook :=
  if p.transition = some .promote || (replaced.isSome && t.parameters.contains p.head.name) then
    t.parameters.delete p.head.name
  else t.parameters

/-- The sheet with the definition at the end, in place of one with its node. -/
def define (t : Sheet) (d : Definition) (parameters : ParameterBook) : Sheet where
  reading := t.reading
  parameters := parameters
  definitions := ⟨(t.without d.node).definitions.entries ++ [d], t.definitions.nextId + 1⟩
  graph := (t.graph.erase d.node).insert d.node d.references

theorem Linked.nodes_define (h : t.Linked) (d : Definition) (parameters : ParameterBook) :
    (t.define d parameters).graph.nodes =
      (t.define d parameters).definitions.entries.map fun d => (d.node, d.references) := by
  have hgraph := (h.without d.node).graph
  have habsent : (t.graph.erase d.node).contains d.node = false := by
    rw [Bool.eq_false_iff, ne_eq, Graph.contains_erase]
    simp
  simp only [define, Graph.insert, habsent, Bool.false_eq_true, if_false, List.map_append]
  exact congrArg (· ++ [(d.node, d.references)]) hgraph

/-- The sheet with one id given out. -/
def withNewId (t : Sheet) : Sheet :=
  { t with definitions := { t.definitions with nextId := t.definitions.nextId + 1 } }

theorem Linked.withNewId (h : t.Linked) : t.withNewId.Linked where
  definitions := h.definitions.of_sublist (List.Sublist.refl _) (Nat.le_succ _)
  spelled := h.spelled
  graph := h.graph
  acyclic := h.acyclic

/-- A definition takes its name from a function that gives way, or its node is new. -/
structure TakesNode (t : Sheet) (p : Plan) (replaced : Option Name) : Prop where
  spelled : p.head.kind ≠ .anonymous → Spelled p.head.name
  named : replaced.isSome = true → p.head.kind ≠ .anonymous
  new : p.head.kind ≠ .anonymous → replaced = none → p.head.name ∉ t.definitions.names

theorem isAnonymous_definitionFor :
    (t.definitionFor p raw).isAnonymous = decide (p.head.kind = .anonymous) := by
  rw [Definition.isAnonymous, Bool.eq_iff_iff]
  simp [definitionFor]

theorem node_definitionFor : (t.definitionFor p raw).node =
    if p.head.kind = .anonymous then DefinitionBook.idFor true t.definitions.nextId
    else p.head.name := by
  rw [Definition.node, isAnonymous_definitionFor]
  by_cases hk : p.head.kind = .anonymous
  · simp [hk, definitionFor]
  · simp [hk, definitionFor]

/-- A name that is the node of a definition is its name. -/
theorem eq_head_of_node (hn : Spelled name) (hnode : name = (t.definitionFor p raw).node) :
    p.head.kind ≠ .anonymous ∧ name = p.head.name := by
  rw [node_definitionFor] at hnode
  split at hnode
  · exact absurd hnode (hn.ne_idFor _ _)
  case isFalse hk => exact ⟨hk, hnode⟩

theorem Linked.newId_not_mem_nodes (h : t.Linked) :
    DefinitionBook.idFor true t.definitions.nextId ∉ t.definitions.entries.map Definition.node := by
  intro hmem
  obtain ⟨d, hd, hnode⟩ := List.mem_map.mp hmem
  cases hk : d.isAnonymous with
  | true =>
    rw [node_of_isAnonymous hk] at hnode
    exact h.definitions.fresh true (hnode ▸ List.mem_map_of_mem hd)
  | false => exact (h.spelled_node hd hk).ne_idFor true _ hnode

theorem Linked.not_mem_nodes (h : t.Linked) (hnew : TakesNode t p replaced)
    (hr : replaced = none) (raw : Text) :
    (t.definitionFor p raw).node ∉ t.definitions.entries.map Definition.node := by
  rw [node_definitionFor]
  by_cases hk : p.head.kind = .anonymous
  · rw [if_pos hk]
    exact h.newId_not_mem_nodes
  · rw [if_neg hk, h.mem_nodes_iff (hnew.spelled hk)]
    exact hnew.new hk hr

theorem Linked.clearName_eq (h : t.Linked) (hnew : TakesNode t p replaced) (raw : Text) :
    t.withNewId.clearName p replaced =
      .ok { t.withNewId.without (t.definitionFor p raw).node with
        parameters := t.clearedParameters p replaced } := by
  have hcleared : ({ t.withNewId with parameters := t.clearedParameters p replaced } : Sheet) =
      if p.transition = some .promote ||
          (replaced.isSome && t.withNewId.parameters.contains p.head.name) then
        { t.withNewId with parameters := t.withNewId.parameters.delete p.head.name }
      else t.withNewId := by
    rw [clearedParameters, show t.withNewId.parameters = t.parameters from rfl]
    split <;> rfl
  have hlinked :
      ({ t.withNewId with parameters := t.clearedParameters p replaced } : Sheet).Linked :=
    ⟨h.withNewId.definitions, h.spelled, h.graph, h.acyclic⟩
  unfold clearName
  dsimp only
  rw [← hcleared]
  cases hr : replaced.isSome with
  | true =>
    have hk := hnew.named hr
    rw [if_pos rfl, hlinked.removeFunction_of_unchecked (hnew.spelled hk), node_definitionFor,
      if_neg hk]
    rfl
  | false =>
    have hnode := h.not_mem_nodes hnew (by simpa using hr) raw
    rw [if_neg (by simp), h.withNewId.without_eq_self hnode]

/-- The steps of storing a definition, in terms of the definition stored. -/
theorem storeDefinition_eq : t.storeDefinition p raw replaced =
    match t.graph.probe (t.definitionFor p raw).node (t.definitionFor p raw).references with
    | some cycle => (.error (.cycle cycle), t.withNewId)
    | none =>
      match if p.head.kind = .anonymous then .ok ()
        else t.checkUsers p.head.name p.head.formals.length with
      | .error e => (.error e, t.withNewId)
      | .ok () =>
        match t.withNewId.clearName p replaced with
        | .error e => (.error e, t.withNewId)
        | .ok u =>
          match u.definitions.add (t.definitionFor p raw) with
          | .error e => (.error e,
            { u with parameters := markIndependent u.parameters (axisFor p) p.head.formals })
          | .ok definitions =>
            (.ok (), { u with
              parameters := markIndependent u.parameters (axisFor p) p.head.formals
              definitions
              graph := u.graph.insert (t.definitionFor p raw).node
                (t.definitionFor p raw).references }) := by
  have hnode : (t.definitionFor p raw).node =
      if p.head.kind = .anonymous then (t.definitions.newId (p.head.kind = .anonymous)).1
      else p.head.name := by
    rw [Definition.node, isAnonymous_definitionFor]
    simp only [decide_eq_true_eq]
    rfl
  rw [hnode]
  rfl

/-- Once its name is free, a definition is added at the end. -/
theorem Linked.add_eq (h : t.Linked) :
    (t.withNewId.without (t.definitionFor p raw).node).definitions.add (t.definitionFor p raw) =
      .ok ⟨(t.without (t.definitionFor p raw).node).definitions.entries ++ [t.definitionFor p raw],
        t.definitions.nextId + 1⟩ := by
  have hname : ¬ (!(t.definitionFor p raw).isAnonymous &&
      (t.withNewId.without (t.definitionFor p raw).node).definitions.contains
        (t.definitionFor p raw).name) = true := by
    intro hc
    rw [Bool.and_eq_true, Bool.not_eq_true', DefinitionBook.contains_iff] at hc
    rw [node_of_not_isAnonymous hc.1, names_without] at hc
    simp at hc
  have hid : (t.definitionFor p raw).id ∉
      (t.without (t.definitionFor p raw).node).definitions.entries.map Definition.id := by
    intro hmem
    exact h.definitions.fresh _ ((List.filter_sublist.map _).mem hmem)
  rw [DefinitionBook.add, if_neg hname, DefinitionBook.put_eq_place]
  exact congrArg Except.ok (congrArg (DefinitionBook.mk · _) (Keyed.place_of_not_mem hid))

/-- Storing a definition under a node that it takes. -/
theorem Linked.storeDefinition_of_takesNode (h : t.Linked) (hnew : TakesNode t p replaced)
    (raw : Text) : t.storeDefinition p raw replaced =
      match t.graph.probe (t.definitionFor p raw).node (t.definitionFor p raw).references with
      | some cycle => (.error (.cycle cycle), t.withNewId)
      | none =>
        match if p.head.kind = .anonymous then .ok ()
          else t.checkUsers p.head.name p.head.formals.length with
        | .error e => (.error e, t.withNewId)
        | .ok () => (.ok (), t.define (t.definitionFor p raw)
          (markIndependent (t.clearedParameters p replaced) (axisFor p) p.head.formals)) := by
  rw [storeDefinition_eq, h.clearName_eq hnew raw]
  dsimp only
  rw [h.add_eq]
  rfl

/-- A definition is refused with nothing changed but the counter, or it is stored. -/
theorem Linked.storeDefinition_cases (h : t.Linked) (hnew : TakesNode t p replaced) (raw : Text) :
    (∃ e, t.storeDefinition p raw replaced = (.error e, t.withNewId)) ∨
      (t.graph.probe (t.definitionFor p raw).node (t.definitionFor p raw).references = none ∧
        (p.head.kind ≠ .anonymous →
          t.checkUsers p.head.name p.head.formals.length = .ok ()) ∧
        t.storeDefinition p raw replaced = (.ok (), t.define (t.definitionFor p raw)
          (markIndependent (t.clearedParameters p replaced) (axisFor p) p.head.formals))) := by
  rw [h.storeDefinition_of_takesNode hnew raw]
  cases hprobe : t.graph.probe (t.definitionFor p raw).node (t.definitionFor p raw).references with
  | some cycle => exact Or.inl ⟨_, rfl⟩
  | none =>
    cases hcheck : (if p.head.kind = .anonymous then .ok ()
        else t.checkUsers p.head.name p.head.formals.length) with
    | error e => exact Or.inl ⟨_, rfl⟩
    | ok u => exact Or.inr ⟨rfl, fun hk => by rwa [if_neg hk] at hcheck, rfl⟩

end Sheet

end Formulary
