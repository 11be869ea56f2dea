import Formulary.Proofs.Binding.Planned
import Formulary.Proofs.Graph.Order
import Formulary.Proofs.Sheet.DefinitionBook
import Formulary.Proofs.Sheet.ParameterBook
import Formulary.Sheet.Basic

/-! # Books and graph together

Definitions and graph are linked when the graph has exactly one node for every
definition. Leaving out a definition and its node keeps them linked, and so does
adding both.
-/

namespace Formulary

/-- The names that a definition refers to. -/
def Definition.references (d : Definition) : List Name := d.dependencies ++ d.calls

namespace Sheet

variable {s s' : Sheet} {d : Definition} {name node : Text}

/-- The graph is that of the definitions, and no chain of references is closed. -/
structure Linked (s : Sheet) : Prop where
  definitions : s.definitions.Keyed
  spelled : ∀ name ∈ s.definitions.names, Spelled name
  graph : s.graph.nodes = s.definitions.entries.map fun d => (d.node, d.references)
  acyclic : s.graph.Acyclic

/-- Books and graph are in order, and a name is that of a parameter or of a function. -/
structure Consistent (s : Sheet) : Prop extends Linked s where
  parameters : s.parameters.Keyed
  symbols : ∀ name ∈ s.parameters.names, Spelled name
  disjoint : s.parameters.names.Disjoint s.definitions.names

theorem consistent_empty (r : Reading) : (empty r).Consistent where
  definitions := DefinitionBook.keyed_empty
  spelled := by simp [empty, DefinitionBook.empty, DefinitionBook.names, DefinitionBook.named]
  graph := rfl
  acyclic x h := by
    obtain ⟨y, hy, -⟩ := Relation.TransGen.head'_iff.mp h
    simp [empty, Graph.empty, Graph.Refers, Graph.references] at hy
  parameters := ParameterBook.keyed_empty
  symbols := by simp [empty, ParameterBook.empty, ParameterBook.names]
  disjoint := by simp [empty, ParameterBook.empty, ParameterBook.names]

/-! ### Nodes -/

theorem node_of_isAnonymous (h : d.isAnonymous = true) : d.node = d.id := by
  rw [Definition.node, if_pos h]

theorem node_of_not_isAnonymous (h : d.isAnonymous = false) : d.node = d.name := by
  rw [Definition.node, h, if_neg (by decide)]

/-- The node of a plot is no name. -/
theorem Linked.node_of_spelled (h : s.Linked) (hd : d ∈ s.definitions.entries)
    (hn : Spelled d.node) : d.isAnonymous = false ∧ d.name = d.node := by
  cases hk : d.isAnonymous with
  | false => exact ⟨rfl, (node_of_not_isAnonymous hk).symm⟩
  | true =>
    obtain ⟨k, n, -, hid⟩ := h.definitions.issued d hd
    rw [node_of_isAnonymous hk, hid] at hn
    exact absurd rfl (hn.ne_idFor k n)

theorem Linked.spelled_node (h : s.Linked) (hd : d ∈ s.definitions.entries)
    (hk : d.isAnonymous = false) : Spelled d.node := by
  rw [node_of_not_isAnonymous hk]
  exact h.spelled d.name (DefinitionBook.mem_names.mpr ⟨d, hd, hk, rfl⟩)

theorem Linked.nodup_nodes (h : s.Linked) : (s.definitions.entries.map Definition.node).Nodup := by
  refine List.Nodup.map_on (fun d hd o ho he => ?_) (List.Nodup.of_map _ h.definitions.ids)
  cases hk : d.isAnonymous with
  | false =>
    have hn := h.spelled_node hd hk
    have hn' := hn
    rw [he] at hn'
    obtain ⟨hk', hname⟩ := h.node_of_spelled ho hn'
    have hnames : (s.definitions.named.map Definition.name).Nodup := h.definitions.names
    refine Keyed.eq_of_key hnames (DefinitionBook.mem_named.mpr ⟨hd, hk⟩)
      (DefinitionBook.mem_named.mpr ⟨ho, hk'⟩) ?_
    rw [hname, ← he, node_of_not_isAnonymous hk]
  | true =>
    cases hk' : o.isAnonymous with
    | false =>
      have hn := h.spelled_node ho hk'
      rw [← he] at hn
      exact absurd (h.node_of_spelled hd hn).1 (by simp [hk])
    | true =>
      apply Keyed.eq_of_key h.definitions.ids hd ho
      rw [← node_of_isAnonymous hk, he, node_of_isAnonymous hk']

theorem Linked.keys (h : s.Linked) : s.graph.keys = s.definitions.entries.map Definition.node := by
  rw [Graph.keys, h.graph, List.map_map]
  rfl

theorem Linked.mem_nodes_iff (h : s.Linked) (hn : Spelled name) :
    name ∈ s.definitions.entries.map Definition.node ↔ name ∈ s.definitions.names := by
  rw [List.mem_map, DefinitionBook.mem_names]
  constructor
  · rintro ⟨d, hd, rfl⟩
    exact ⟨d, hd, h.node_of_spelled hd hn⟩
  · rintro ⟨d, hd, hk, rfl⟩
    exact ⟨d, hd, node_of_not_isAnonymous hk⟩

theorem Linked.references_node (h : s.Linked) (hd : d ∈ s.definitions.entries) :
    s.graph.references d.node = d.references := by
  apply Graph.references_of_mem (h.keys ▸ h.nodup_nodes)
  rw [h.graph]
  exact List.mem_map.mpr ⟨d, hd, rfl⟩

theorem Linked.mem_users (h : s.Linked) {x : Text} : node ∈ s.graph.users x ↔
    ∃ d ∈ s.definitions.entries, x ∈ d.references ∧ d.node = node := by
  rw [Graph.users, h.graph]
  simp [List.filter_map, and_assoc]

/-! ### Leaving a definition out -/

/-- The sheet without the definition that has this node, if there is one. -/
def without (s : Sheet) (node : Text) : Sheet :=
  { s with
    definitions := { s.definitions with
      entries := s.definitions.entries.filter fun d => d.node != node }
    graph := s.graph.erase node }

theorem mem_without : d ∈ (s.without node).definitions.entries ↔
    d ∈ s.definitions.entries ∧ d.node ≠ node := by
  simp [without]

theorem Linked.without (h : s.Linked) (node : Text) : (s.without node).Linked where
  definitions := h.definitions.of_sublist List.filter_sublist (Nat.le_refl _)
  spelled name hname := by
    obtain ⟨d, hd, hk⟩ := DefinitionBook.mem_names.mp hname
    exact h.spelled name (DefinitionBook.mem_names.mpr ⟨d, (mem_without.mp hd).1, hk⟩)
  graph := by
    show (s.graph.erase node).nodes = _
    rw [Graph.erase, h.graph, List.filter_map]
    rfl
  acyclic := h.acyclic.erase

theorem names_without (s : Sheet) (name : Name) :
    (s.without name).definitions.names = s.definitions.names.filter (· != name) := by
  rw [DefinitionBook.names, DefinitionBook.names, DefinitionBook.named, DefinitionBook.named,
    List.filter_map, Sheet.without, List.filter_filter, List.filter_filter]
  congr 1
  apply List.filter_congr
  intro d hd
  cases hk : d.isAnonymous with
  | true => simp
  | false => simp [node_of_not_isAnonymous hk]

/-- A name without a definition leaves nothing out. -/
theorem Linked.without_eq_self (h : s.Linked)
    (hn : node ∉ s.definitions.entries.map Definition.node) : s.without node = s := by
  have hentries : s.definitions.entries.filter (fun d => d.node != node) =
      s.definitions.entries := by
    apply List.filter_eq_self.mpr
    intro d hd
    rw [bne_iff_ne]
    rintro rfl
    exact hn (List.mem_map_of_mem hd)
  have hgraph : s.graph.erase node = s.graph := by
    have hnodes : s.graph.nodes.filter (fun n => n.1 != node) = s.graph.nodes := by
      apply List.filter_eq_self.mpr
      intro n hmem
      rw [bne_iff_ne]
      rintro rfl
      exact hn (h.keys ▸ List.mem_map_of_mem hmem)
    rw [Graph.erase, hnodes]
  rw [Sheet.without, hentries, hgraph]

theorem Linked.remove_eq (h : s.Linked) (hd : d ∈ s.definitions.entries) :
    { s with definitions := s.definitions.remove d.id, graph := s.graph.erase d.node } =
      s.without d.node := by
  rw [Sheet.without, DefinitionBook.remove,
    Keyed.filter_key_congr h.definitions.ids h.nodup_nodes hd]

/-- Another definition calls the function. -/
def CalledByOthers (s : Sheet) (name : Name) : Prop :=
  ∃ o ∈ s.definitions.entries, o.node ≠ name ∧ name ∈ o.calls

theorem Linked.calledByOthers_iff (h : s.Linked) (hd : d ∈ s.definitions.entries)
    (hk : d.isAnonymous = false) : s.CalledByOthers d.name ↔
      ∃ o ∈ s.definitions.entries, d.name ∈ o.calls ∧ o.id ≠ d.id := by
  have hkey : ∀ o ∈ s.definitions.entries, o.node = d.name ↔ o.id = d.id := by
    intro o ho
    rw [← node_of_not_isAnonymous hk]
    exact ⟨fun he => by rw [Keyed.eq_of_key h.nodup_nodes ho hd he],
      fun he => by rw [Keyed.eq_of_key h.definitions.ids ho hd he]⟩
  constructor
  · rintro ⟨o, ho, hne, hcall⟩
    exact ⟨o, ho, hcall, fun he => hne ((hkey o ho).mpr he)⟩
  · rintro ⟨o, ho, hcall, hne⟩
    exact ⟨o, ho, fun he => hne ((hkey o ho).mp he), hcall⟩

theorem Linked.removeFunction_of_unchecked (h : s.Linked) (hn : Spelled name) :
    s.removeFunction name false = .ok (s.without name) := by
  unfold removeFunction
  cases hf : s.definitions.find? name with
  | none =>
    rw [h.without_eq_self]
    rw [h.mem_nodes_iff hn]
    exact DefinitionBook.find?_eq_none.mp hf
  | some d =>
    obtain ⟨hd, hk, rfl⟩ := h.definitions.find?_eq_some.mp hf
    have hremove := h.remove_eq hd
    rw [node_of_not_isAnonymous hk] at hremove
    simp [hremove]

/-- A function that no other definition calls gives way. -/
theorem Linked.removeFunction_of_free (h : s.Linked) (hn : Spelled name)
    (hfree : name ∈ s.definitions.names → ¬ s.CalledByOthers name) :
    s.removeFunction name true = .ok (s.without name) := by
  rw [← h.removeFunction_of_unchecked hn]
  unfold removeFunction
  cases hf : s.definitions.find? name with
  | none => rfl
  | some d =>
    obtain ⟨hd, hk, rfl⟩ := h.definitions.find?_eq_some.mp hf
    have hnone := hfree (DefinitionBook.mem_names.mpr ⟨d, hd, hk, rfl⟩)
    rw [h.calledByOthers_iff hd hk] at hnone
    have hcallers : ∀ o ∈ s.definitions.entries, d.name ∈ o.calls → o.id = d.id := by
      intro o ho hcall
      by_contra hne
      exact hnone ⟨o, ho, hcall, hne⟩
    simpa using hcallers

theorem Linked.removeFunction_of_called (h : s.Linked) (hname : name ∈ s.definitions.names)
    (hcalled : s.CalledByOthers name) : ∃ e, s.removeFunction name true = .error e := by
  obtain ⟨d, hd, hk, rfl⟩ := DefinitionBook.mem_names.mp hname
  rw [h.calledByOthers_iff hd hk] at hcalled
  unfold removeFunction
  rw [h.definitions.find?_eq_some.mpr ⟨hd, hk, rfl⟩]
  simp [hcalled]

end Sheet

end Formulary
