import Mathlib.Data.List.Chain
import Mathlib.Data.List.Nodup
import Mathlib.Logic.Relation
import Formulary.Graph

/-! # Paths and cycles of reference graphs

Edges are read off the references of a node, so names without a node lead
nowhere. Insertion and removal change the references of one name only; a node
that is removed and comes back has the same cycles as one replaced in place.
-/

namespace Formulary.Graph

open Relation

variable {g : Graph} {x y : Text}

/-- `x` is a node and lists `y` among its references. -/
def Refers (g : Graph) (x y : Text) : Prop := y ∈ g.references x

/-- No chain of references leads back to its start. -/
def Acyclic (g : Graph) : Prop := ∀ x, ¬ TransGen g.Refers x x

/-- A closed walk `a, b, …, a` along references, with distinct names but for its ends. -/
structure IsCycle (g : Graph) (c : List Text) : Prop where
  chain : c.IsChain g.Refers
  closed : ∃ x inner, c = x :: (inner ++ [x]) ∧ (x :: inner).Nodup

/-- The names that have a node, in the order of insertion. -/
def keys (g : Graph) : List Text := g.nodes.map (·.1)

theorem contains_iff : g.contains x = true ↔ x ∈ g.keys := by
  simp [contains, keys]

theorem contains_of_refers (h : g.Refers x y) : g.contains x = true := by
  unfold Refers references at h
  cases hf : g.nodes.find? (fun n => n.1 == x) with
  | none => simp [hf] at h
  | some n =>
    have hn := List.find?_some hf
    exact List.any_eq_true.mpr ⟨n, List.mem_of_find?_eq_some hf, hn⟩

theorem references_of_mem {refs : List Text} (hk : g.keys.Nodup) (h : (x, refs) ∈ g.nodes) :
    g.references x = refs := by
  unfold references
  cases hf : g.nodes.find? (fun n => n.1 == x) with
  | none => simpa using List.find?_eq_none.mp hf (x, refs) h
  | some n =>
    have hn : n.1 = x := by simpa using List.find?_some hf
    have he := List.inj_on_of_nodup_map hk (List.mem_of_find?_eq_some hf) h hn
    simp [he]

/-! ### Chains of references -/

/-- Where a chain comes back to its start, what lies between can be left out. -/
theorem exists_simple_chain (h : TransGen g.Refers x y) :
    ∃ inner, (x :: (inner ++ [y])).IsChain g.Refers ∧ (x :: inner).Nodup := by
  induction h using TransGen.head_induction_on with
  | single hr => exact ⟨[], by simpa using hr, by simp⟩
  | @head x z hr _ ih =>
    obtain ⟨inner, hchain, hnodup⟩ := ih
    by_cases hx : x ∈ z :: inner
    · obtain ⟨front, back, hsplit⟩ := List.append_of_mem hx
      rw [← List.cons_append, hsplit, List.append_assoc, List.cons_append] at hchain
      rw [hsplit] at hnodup
      exact ⟨back, (List.isChain_append.mp hchain).2.1, (List.nodup_append.mp hnodup).2.1⟩
    · exact ⟨z :: inner, List.isChain_cons_cons.mpr ⟨hr, hchain⟩, List.nodup_cons.mpr ⟨hx, hnodup⟩⟩

/-- A chain leads from each of its names to all that come after. -/
theorem pairwise_of_isChain {c : List Text} (h : c.IsChain g.Refers) :
    c.Pairwise (TransGen g.Refers) :=
  (h.imp fun _ _ hr => TransGen.single hr).pairwise

/-- A name that leads on has a node, so the names between the ends of a chain have one each. -/
theorem transGen_iff_chain : TransGen g.Refers x y ↔
    ∃ inner, (x :: (inner ++ [y])).IsChain g.Refers ∧ ∀ z ∈ x :: inner, g.contains z = true := by
  constructor
  · intro h
    obtain ⟨inner, hchain, -⟩ := exists_simple_chain h
    refine ⟨inner, hchain, fun z hz => ?_⟩
    have hlast : TransGen g.Refers z y := by
      have hpair := pairwise_of_isChain hchain
      rw [← List.cons_append, List.pairwise_append] at hpair
      exact hpair.2.2 z hz y (by simp)
    obtain ⟨w, hw, -⟩ := TransGen.head'_iff.mp hlast
    exact contains_of_refers hw
  · rintro ⟨inner, hchain, -⟩
    exact (List.pairwise_cons.mp (pairwise_of_isChain hchain)).1 y (by simp)

/-- The first step of a cycle and the rest of it close a chain of references. -/
theorem IsCycle.transGen {c : List Text} (h : g.IsCycle c) : ∃ x, TransGen g.Refers x x := by
  obtain ⟨x, inner, rfl, -⟩ := h.closed
  exact ⟨x, (List.pairwise_cons.mp (pairwise_of_isChain h.chain)).1 x (by simp)⟩

/-- The names of cycles are those that a chain leads from and back to. -/
theorem exists_mem_isCycle_iff : (∃ c, g.IsCycle c ∧ x ∈ c) ↔ TransGen g.Refers x x := by
  constructor
  · rintro ⟨c, hc, hx⟩
    obtain ⟨a, inner, rfl, -⟩ := hc.closed
    have hpair := pairwise_of_isChain hc.chain
    have hfrom := (List.pairwise_cons.mp hpair).1
    rw [← List.cons_append, List.pairwise_append] at hpair
    rw [← List.cons_append] at hx
    rcases List.mem_append.mp hx with hx | hx
    · have hback : TransGen g.Refers x a := hpair.2.2 x hx a (by simp)
      rcases List.mem_cons.mp hx with rfl | hx
      · exact hback
      · exact hback.trans (hfrom x (List.mem_append_left [a] hx))
    · obtain rfl := List.mem_singleton.mp hx
      exact hfrom x (by simp)
  · intro h
    obtain ⟨inner, hchain, hnodup⟩ := exists_simple_chain h
    exact ⟨x :: (inner ++ [x]), ⟨hchain, x, inner, rfl, hnodup⟩, by simp⟩

/-! ### Insertion and removal -/

theorem references_insert (refs : List Text) :
    (g.insert x refs).references y = if y = x then refs else g.references y := by
  unfold insert references
  split
  case isTrue hx =>
    have hkey : ((fun n : Text × List Text => n.1 == y) ∘
        fun n => if n.1 == x then (x, refs) else n) = fun n => n.1 == y := by
      funext n
      by_cases hn : n.1 = x <;> simp [hn]
    rw [List.find?_map, hkey]
    cases hf : g.nodes.find? (fun n => n.1 == y) with
    | none =>
      have hne : y ≠ x := by
        rintro rfl
        obtain ⟨n, hn, hny⟩ := List.any_eq_true.mp hx
        exact List.find?_eq_none.mp hf n hn hny
      simp [hne]
    | some n =>
      have hn : n.1 = y := by simpa using List.find?_some hf
      by_cases hy : y = x <;> simp [hn, hy]
  case isFalse hx =>
    rw [List.find?_append]
    by_cases hy : y = x
    · subst hy
      have hf : g.nodes.find? (fun n => n.1 == y) = none := by
        rw [List.find?_eq_none]
        intro n hn hny
        exact hx (List.any_eq_true.mpr ⟨n, hn, hny⟩)
      rw [hf]
      simp
    · have hxy : x ≠ y := Ne.symm hy
      simp [hxy, hy]

theorem keys_insert (refs : List Text) :
    (g.insert x refs).keys = if g.contains x then g.keys else g.keys ++ [x] := by
  unfold insert
  split
  · rw [keys, keys, List.map_map]
    refine List.map_congr_left fun n _ => ?_
    by_cases hn : n.1 = x <;> simp [hn]
  · simp [keys]

theorem keys_erase : (g.erase x).keys = g.keys.filter (· != x) := by
  simp [keys, erase, List.filter_map, Function.comp_def]

theorem contains_erase : (g.erase x).contains y = true ↔ y ≠ x ∧ g.contains y = true := by
  rw [contains_iff, keys_erase, contains_iff, List.mem_filter]
  simp [and_comm]

theorem references_erase : (g.erase x).references y = if y = x then [] else g.references y := by
  unfold erase references
  rw [List.find?_filter]
  split
  case isTrue hy =>
    have hf : g.nodes.find? (fun n => decide ((n.1 != x) = true ∧ (n.1 == y) = true)) = none := by
      rw [List.find?_eq_none]
      intro n _
      simp [hy]
    rw [hf]
    rfl
  case isFalse hy =>
    congr 3
    funext n
    by_cases hn : n.1 = y <;> simp [hn, hy]

theorem refers_insert {z : Text} {refs : List Text} :
    (g.insert x refs).Refers y z ↔ if y = x then z ∈ refs else g.Refers y z := by
  rw [Refers, references_insert]
  split <;> rfl

theorem refers_erase {z : Text} : (g.erase x).Refers y z ↔ y ≠ x ∧ g.Refers y z := by
  rw [Refers, references_erase]
  split
  case isTrue hy => simp [hy]
  case isFalse hy => simp [hy, Refers]

theorem Acyclic.erase (h : g.Acyclic) : (g.erase x).Acyclic := by
  intro z hz
  exact h z (TransGen.mono (fun _ _ hab => (refers_erase.mp hab).2) _ _ hz)

theorem acyclic_insert_erase (refs : List Text) :
    ((g.erase x).insert x refs).Acyclic ↔ (g.insert x refs).Acyclic := by
  have he : ((g.erase x).insert x refs).Refers = (g.insert x refs).Refers := by
    funext a b
    simp only [Refers, references_insert, references_erase]
    by_cases ha : a = x <;> simp [ha]
  simp only [Acyclic, he]

/-! ### Renamed nodes -/

theorem mem_nodes_of_refers (h : g.Refers x y) : ∃ refs, (x, refs) ∈ g.nodes ∧ y ∈ refs := by
  unfold Refers references at h
  cases hf : g.nodes.find? (fun n => n.1 == x) with
  | none => simp [hf] at h
  | some n =>
    obtain rfl : n.1 = x := by simpa using List.find?_some hf
    exact ⟨n.2, List.mem_of_find?_eq_some hf, by simpa [hf] using h⟩

/-- A graph that is found in another, under other names for what nothing refers to, has no cycle
if the other has none. -/
theorem Acyclic.of_rename {g' : Graph} (h : g'.Acyclic) (rename : Text → Text)
    (hk : g'.keys.Nodup) (hnodes : ∀ n ∈ g.nodes, (rename n.1, n.2) ∈ g'.nodes)
    (hkept : ∀ n ∈ g.nodes, ∀ y ∈ n.2, rename y = y) : g.Acyclic := by
  intro x hx
  refine h (rename x) (TransGen.lift rename (fun a b hab => ?_) _ _ hx)
  obtain ⟨refs, hmem, hb⟩ := mem_nodes_of_refers hab
  show rename b ∈ g'.references (rename a)
  rw [references_of_mem hk (hnodes _ hmem), hkept _ hmem b hb]
  exact hb

end Formulary.Graph
