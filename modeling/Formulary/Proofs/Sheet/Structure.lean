import Formulary.Proofs.Sheet.Step

/-! # Books and graph stay together

Whatever is done with a sheet, names stay distinct, the graph keeps one node for
every definition, and no definition refers to itself through others, so there
always is an order of all definitions after what they refer to.
-/

namespace Formulary.Sheet

variable {s t : Sheet} {raw : Text} {redefine : Bool} {name : Name} {p : Plan} {a : Action}

/-! ### What each step keeps -/

theorem references_core (d : Definition) : d.core.references = d.references := rfl

theorem Linked.alike (h : s.Linked) (ha : Alike s t) : t.Linked where
  definitions := h.definitions.of_cores ha.cores ha.ids
  spelled := by
    rw [DefinitionBook.names_eq_cores, ha.cores, ← DefinitionBook.names_eq_cores]
    exact h.spelled
  graph := by
    have hnodes : ∀ b : DefinitionBook, b.entries.map (fun d => (d.node, d.references)) =
        b.cores.map fun d => (d.node, d.references) := by
      intro b
      rw [DefinitionBook.cores, List.map_map]
      rfl
    rw [ha.graph, h.graph, hnodes, hnodes, ha.cores]
  acyclic := ha.graph ▸ h.acyclic

theorem Consistent.alike (h : s.Consistent) (ha : Alike s t) : t.Consistent where
  toLinked := h.toLinked.alike ha
  parameters := ha.keyed
  symbols := ha.names ▸ h.symbols
  disjoint := by
    rw [ha.names, DefinitionBook.names_eq_cores, ha.cores, ← DefinitionBook.names_eq_cores]
    exact h.disjoint

theorem Consistent.without (h : s.Consistent) (node : Text) : (s.without node).Consistent where
  toLinked := h.toLinked.without node
  parameters := h.parameters
  symbols := h.symbols
  disjoint := by
    intro n hn hn'
    rw [names_without] at hn'
    exact h.disjoint hn (List.mem_filter.mp hn').1

theorem Consistent.deleteParameter (h : s.Consistent) (name : Name) :
    Consistent { s with parameters := s.parameters.delete name } where
  toLinked := ⟨h.definitions, h.spelled, h.graph, h.acyclic⟩
  parameters := h.parameters.delete
  symbols n hn := by
    rw [h.parameters.names_delete] at hn
    exact h.symbols n (List.mem_filter.mp hn).1
  disjoint n hn hn' := by
    rw [h.parameters.names_delete] at hn
    exact h.disjoint (List.mem_filter.mp hn).1 hn'

/-- Whatever becomes a parameter with a plan is spelled as a symbol. -/
theorem Consistent.spelled_of_mem (h : s.Consistent) (hp : s.Plans raw redefine p)
    (hn : name ∈ s.parameters.names ∨ name ∈ p.missing) : Spelled name := by
  rcases hn with hn | hn
  · exact h.symbols name hn
  · exact hp.spelled_of_mem_dependencies (hp.mem_missing.mp hn).1

/-- What is created for a plan is no function, unless the plan replaces it. -/
theorem Consistent.eq_of_missing_function (h : s.Consistent) (hp : s.Plans raw redefine p)
    (hm : name ∈ p.missing) (hn : name ∈ s.definitions.names) :
    p.head.kind ≠ .anonymous ∧ name = p.head.name := by
  by_cases hr : some name = (s.contextFor raw redefine).replaced
  · obtain ⟨-, hkind, hname, -⟩ := h.replaced_eq_some hp hr.symm
    exact ⟨hkind, hname.symm⟩
  · exact absurd hn (h.not_mem_of_missing hp hm hr).2

theorem Consistent.bindsParameter (h : s.Consistent) (hp : s.Plans raw redefine p)
    (hb : s.BindsParameter p t) : t.Consistent where
  toLinked := by
    have hl := h.toLinked.without p.head.name
    exact ⟨hb.definitions ▸ hl.definitions, hb.definitions ▸ hl.spelled,
      hb.graph ▸ hb.definitions ▸ hl.graph, hb.graph ▸ hl.acyclic⟩
  parameters := hb.keyed
  symbols n hn := by
    rcases (hb.names n).mp hn with hn | hn | rfl
    · exact h.spelled_of_mem hp (Or.inl hn)
    · exact h.spelled_of_mem hp (Or.inr hn)
    · exact spelled_head hp (by simp [hb.kind])
  disjoint n hn hn' := by
    rw [hb.definitions, names_without, List.mem_filter, bne_iff_ne] at hn'
    rcases (hb.names n).mp hn with hn | hn | rfl
    · exact h.disjoint hn hn'.1
    · exact hn'.2 (h.eq_of_missing_function hp hn hn'.1).2
    · exact hn'.2 rfl

/-! ### A definition at the end -/

theorem mem_entries_of_bindsDefinition (hb : s.BindsDefinition raw p t) {d : Definition} :
    d ∈ t.definitions.entries ↔
      d ∈ s.definitions.entries ∧ d.node ≠ (s.definitionFor p raw).node ∨
        d = s.definitionFor p raw := by
  rw [hb.definitions, List.mem_append, List.mem_singleton, mem_without]

theorem names_of_bindsDefinition (hb : s.BindsDefinition raw p t) : t.definitions.names =
    s.definitions.names.filter (· != (s.definitionFor p raw).node) ++
      if p.head.kind = .anonymous then [] else [p.head.name] := by
  rw [← names_without, hb.definitions, DefinitionBook.names, DefinitionBook.named,
    List.filter_append, List.map_append]
  congr 1
  by_cases hk : p.head.kind = .anonymous
  · simp [isAnonymous_definitionFor, hk]
  · rw [List.filter_cons_of_pos (by simp [isAnonymous_definitionFor, hk]), if_neg hk]
    rfl

theorem mem_names_of_bindsDefinition (hb : s.BindsDefinition raw p t) :
    name ∈ t.definitions.names ↔
      name ∈ s.definitions.names ∧ name ≠ (s.definitionFor p raw).node ∨
        p.head.kind ≠ .anonymous ∧ name = p.head.name := by
  rw [names_of_bindsDefinition hb, List.mem_append, List.mem_filter, bne_iff_ne]
  by_cases hk : p.head.kind = .anonymous <;> simp [hk]

theorem keyed_of_bindsDefinition (h : s.Consistent) (hb : s.BindsDefinition raw p t) :
    t.definitions.Keyed where
  names := by
    rw [names_of_bindsDefinition hb, List.nodup_append_comm]
    have hn := h.definitions.names.filter (· != (s.definitionFor p raw).node)
    by_cases hk : p.head.kind = .anonymous
    · simpa [hk] using hn
    · rw [if_neg hk, List.singleton_append, List.nodup_cons]
      refine ⟨?_, hn⟩
      rw [node_definitionFor, if_neg hk]
      simp
  ids := by
    rw [hb.definitions, List.map_append, List.nodup_append_comm, List.map_singleton,
      List.singleton_append, List.nodup_cons]
    have hsub := (List.filter_sublist (l := s.definitions.entries)
      (p := fun d => d.node != (s.definitionFor p raw).node)).map Definition.id
    exact ⟨fun hm => h.definitions.fresh _ (hsub.mem hm), h.definitions.ids.sublist hsub⟩
  issued d hd := by
    have hid : t.definitions.nextId = s.definitions.nextId + 1 := by rw [hb.definitions]
    rcases (mem_entries_of_bindsDefinition hb).mp hd with ⟨hd, -⟩ | rfl
    · obtain ⟨k, n, hn, hd⟩ := h.definitions.issued d hd
      exact ⟨k, n, by omega, hd⟩
    · exact ⟨_, s.definitions.nextId, by omega, rfl⟩

theorem Consistent.bindsDefinition (h : s.Consistent) (hp : s.Plans raw redefine p)
    (hb : s.BindsDefinition raw p t) : t.Consistent where
  definitions := keyed_of_bindsDefinition h hb
  spelled n hn := by
    rcases (mem_names_of_bindsDefinition hb).mp hn with ⟨hn, -⟩ | ⟨hk, rfl⟩
    · exact h.spelled n hn
    · exact spelled_head hp hk
  graph := by
    rw [hb.graph, hb.definitions]
    exact h.toLinked.nodes_define (s.definitionFor p raw) s.parameters
  acyclic := by
    rw [hb.graph, Graph.acyclic_insert_erase]
    exact Graph.probe_eq_none_iff.mp hb.probe
  parameters := hb.keyed
  symbols n hn := h.spelled_of_mem hp ((hb.names n).mp hn).1
  disjoint n hn hn' := by
    obtain ⟨hold, hne⟩ := (hb.names n).mp hn
    rcases (mem_names_of_bindsDefinition hb).mp hn' with ⟨hn', -⟩ | ⟨hk, rfl⟩
    · rcases hold with hold | hold
      · exact h.disjoint hold hn'
      · obtain ⟨hk, rfl⟩ := h.eq_of_missing_function hp hold hn'
        exact hne hk rfl
    · exact hne hk rfl

/-! ### Every reachable sheet -/

/-- One step keeps books and graph in order. -/
theorem Consistent.of_step (h : s.Consistent) (hs : Step s a t) : t.Consistent := by
  cases hs with
  | alike ha => exact h.alike ha
  | definitionDropped hd hfree => exact h.without _
  | parameterDropped hname hfree => exact h.deleteParameter _
  | functionLost hl hsame => exact (h.without _).alike (hsame.alike h.parameters)
  | parameterBound hp hb => exact h.bindsParameter hp hb
  | definitionBound hp hb => exact h.bindsDefinition hp hb

/-- What every step of a run keeps holds at its end, if it holds at the start. -/
theorem Consistent.run_induction {P : Sheet → Prop} {actions : List Action} (h : s.Consistent)
    (hs : P s) (hstep : ∀ a ∈ actions, ∀ s t : Sheet, s.Consistent → Step s a t → P s → P t) :
    (s.run actions).Consistent ∧ P (s.run actions) := by
  induction actions generalizing s with
  | nil => exact ⟨h, hs⟩
  | cons a actions ih =>
    have hfirst := h.step a
    exact ih (h.of_step hfirst) (hstep a List.mem_cons_self s _ h hfirst hs)
      fun a' ha' => hstep a' (List.mem_cons_of_mem a ha')

theorem Step.reading (hs : Step s a t) : t.reading = s.reading := by
  cases hs with
  | alike ha => exact ha.reading
  | definitionDropped => rfl
  | parameterDropped => rfl
  | functionLost _ hsame => exact hsame.reading
  | parameterBound _ hb => exact hb.reading
  | definitionBound _ hb => exact hb.reading

theorem consistent_run (r : Reading) (actions : List Action) :
    ((empty r).run actions).Consistent :=
  ((consistent_empty r).run_induction (P := fun _ => True) trivial fun _ _ _ _ _ _ _ => trivial).1

theorem reading_run (r : Reading) (actions : List Action) :
    ((empty r).run actions).reading = r :=
  ((consistent_empty r).run_induction (P := fun s => s.reading = r) rfl
    fun _ _ _ _ _ hs hr => hs.reading.trans hr).2

/-- The order of a sheet has every definition once, after the definitions that it refers to. -/
theorem Linked.order (h : s.Linked) : ∃ names, s.order = .ok names ∧
    names.Perm (s.definitions.entries.map Definition.node) ∧
    ∀ d ∈ s.definitions.entries, ∀ o ∈ s.definitions.entries, o.node ∈ d.references →
      [o.node, d.node].Sublist names := by
  obtain ⟨names, horder, hnodup, hmem, hsub⟩ := h.acyclic.order
  have hcontains : ∀ x, s.graph.contains x = true ↔
      x ∈ s.definitions.entries.map Definition.node := by
    intro x
    rw [Graph.contains_iff, h.keys]
  refine ⟨names, horder, ?_, fun d hd o ho href => hsub d.node o.node ?_ ?_⟩
  · apply (List.perm_ext_iff_of_nodup hnodup h.nodup_nodes).mpr
    intro x
    rw [hmem, hcontains]
  · rw [Graph.Refers, h.references_node hd]
    exact href
  · exact (hcontains _).mpr (List.mem_map_of_mem ho)

/-- After any actions, names are distinct and belong to a parameter or to a function; the graph is
that of the definitions and has no cycle; and there is an order of all definitions, each after
those that it refers to. -/
theorem run_wellFormed (r : Reading) (actions : List Action) :
    let s := (empty r).run actions
    (s.parameters.names.Nodup ∧ s.definitions.names.Nodup ∧
      ∀ name ∈ s.parameters.names, name ∉ s.definitions.names) ∧
    (s.graph.nodes = s.definitions.entries.map (fun d => (d.node, d.dependencies ++ d.calls)) ∧
      (s.definitions.entries.map Definition.node).Nodup) ∧
    s.graph.Acyclic ∧
    ∃ names, s.order = .ok names ∧ names.Perm (s.definitions.entries.map Definition.node) ∧
      ∀ d ∈ s.definitions.entries, ∀ o ∈ s.definitions.entries,
        o.node ∈ d.dependencies ++ d.calls → [o.node, d.node].Sublist names := by
  intro s
  have h : s.Consistent := consistent_run r actions
  exact ⟨⟨h.parameters.names, h.definitions.names, fun _ hn => h.disjoint hn⟩,
    ⟨h.graph, h.nodup_nodes⟩, h.acyclic, h.order⟩

end Formulary.Sheet
