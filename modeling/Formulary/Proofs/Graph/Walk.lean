import Mathlib.Data.List.Perm.Subperm
import Formulary.Proofs.Graph.Path

/-! # The depth-first walk

A walk ends with a cycle of the graph or with more finished nodes, each after all
nodes it refers to. The path to a node is a chain of distinct nodes, so it is
never longer than the graph and the bound on the walk's depth is never reached.
-/

namespace Formulary.Graph

open Relation

variable {g : Graph} {x y : Text}

/-- Finished nodes, the last first: each stands once, after all nodes it refers to. -/
def Settled (g : Graph) : List Text → Prop
  | [] => True
  | x :: rest =>
    x ∉ rest ∧ g.contains x = true ∧ (∀ y, g.Refers x y → g.contains y = true → y ∈ rest) ∧
      Settled g rest

namespace Settled

variable {done : List Text}

theorem nodup (h : g.Settled done) : done.Nodup := by
  induction done with
  | nil => exact List.nodup_nil
  | cons z rest ih => exact List.nodup_cons.mpr ⟨h.1, ih h.2.2.2⟩

theorem contains (h : g.Settled done) (hx : x ∈ done) : g.contains x = true := by
  induction done with
  | nil => cases hx
  | cons z rest ih =>
    rcases List.mem_cons.mp hx with rfl | hx
    · exact h.2.1
    · exact ih h.2.2.2 hx

/-- A reference to a node leads to one finished before. -/
theorem sublist (h : g.Settled done) (hx : x ∈ done) (hr : g.Refers x y)
    (hy : g.contains y = true) : [x, y].Sublist done := by
  induction done with
  | nil => cases hx
  | cons z rest ih =>
    rcases List.mem_cons.mp hx with rfl | hx
    · exact List.Sublist.cons_cons x (List.singleton_sublist.mpr (h.2.2.1 y hr hy))
    · exact (ih h.2.2.2 hx).cons z

theorem mem_of_refers (h : g.Settled done) (hx : x ∈ done) (hr : g.Refers x y)
    (hy : g.contains y = true) : y ∈ done :=
  (h.sublist hx hr hy).subset (by simp)

theorem mem_of_transGen (h : g.Settled done) (hx : x ∈ done) (hr : TransGen g.Refers x y)
    (hy : g.contains y = true) : y ∈ done := by
  induction hr using TransGen.head_induction_on with
  | single hr => exact h.mem_of_refers hx hr hy
  | head hr hrest ih =>
    have hmid := TransGen.head'_iff.mp hrest
    obtain ⟨z, hz, -⟩ := hmid
    exact ih (h.mem_of_refers hx hr (contains_of_refers hz))

/-- The node of a cycle finished last would refer to one finished before it. -/
theorem not_cyclic (h : g.Settled done) (hx : x ∈ done) : ¬ TransGen g.Refers x x := by
  induction done with
  | nil => cases hx
  | cons z rest ih =>
    rcases List.mem_cons.mp hx with rfl | hx
    · intro hc
      obtain ⟨w, hw, hwx⟩ := TransGen.head'_iff.mp hc
      have hnode : g.contains w = true := by
        rcases ReflTransGen.cases_head hwx with rfl | ⟨v, hv, -⟩
        · exact h.2.1
        · exact contains_of_refers hv
      have hrest := h.2.2.1 w hw hnode
      rcases reflTransGen_iff_eq_or_transGen.mp hwx with rfl | hwx
      · exact h.1 hrest
      · exact h.1 (h.2.2.2.mem_of_transGen hrest hwx h.2.1)
    · exact ih h.2.2.2 hx

end Settled

/-! ### One walk -/

/-- What a walk may end with, `path` being the nodes under way and `wanted` those to be finished:
a cycle, or finished nodes in order with the wanted ones among them. -/
def Outcome (g : Graph) (path done wanted : List Text) : Except (List Text) (List Text) → Prop
  | .error c => g.IsCycle c
  | .ok more => g.Settled more ∧ done ⊆ more ∧ (∀ p ∈ path, p ∉ more) ∧
      ∀ y ∈ wanted, g.contains y = true → y ∈ more

/-- Walks that each end well end well one after the other. -/
theorem outcome_foldlM {path wanted done : List Text}
    {step : List Text → Text → Except (List Text) (List Text)}
    (hstep : ∀ y ∈ wanted, ∀ done, g.Settled done → (∀ p ∈ path, p ∉ done) →
      g.Outcome path done [y] (step done y))
    (hdone : g.Settled done) (hpath : ∀ p ∈ path, p ∉ done) :
    g.Outcome path done wanted (wanted.foldlM step done) := by
  induction wanted generalizing done with
  | nil => exact ⟨hdone, List.Subset.refl _, hpath, by simp⟩
  | cons y rest ih =>
    have hy := hstep y (by simp) done hdone hpath
    rw [List.foldlM_cons]
    cases hs : step done y with
    | error c =>
      rw [hs] at hy
      exact hy
    | ok mid =>
      rw [hs] at hy
      obtain ⟨hmid, hsub, hfree, hin⟩ := hy
      have hrest := ih (fun z hz => hstep z (List.mem_cons_of_mem _ hz)) hmid hfree
      change g.Outcome path done (y :: rest) (rest.foldlM step mid)
      cases hr : rest.foldlM step mid with
      | error c =>
        rw [hr] at hrest
        exact hrest
      | ok more =>
        rw [hr] at hrest
        obtain ⟨hmore, hsub', hfree', hin'⟩ := hrest
        refine ⟨hmore, List.Subset.trans hsub hsub', hfree', fun z hz hnode => ?_⟩
        rcases List.mem_cons.mp hz with rfl | hz
        · exact hsub' (hin z (by simp) hnode)
        · exact hin' z hz hnode

/-- The nodes under way to `x`, the last first: distinct, and each refers to the one after it. -/
structure Trail (g : Graph) (path : List Text) (x : Text) : Prop where
  nodup : path.Nodup
  nodes : ∀ p ∈ path, g.contains p = true
  chain : (x :: path).IsChain fun a b => g.Refers b a

namespace Trail

variable {path : List Text}

theorem start : g.Trail [] x := ⟨List.nodup_nil, by simp, by simp⟩

theorem step (h : g.Trail path x) (hx : x ∉ path) (hnode : g.contains x = true)
    (hr : g.Refers x y) : g.Trail (x :: path) y where
  nodup := List.nodup_cons.mpr ⟨hx, h.nodup⟩
  nodes := by
    intro p hp
    rcases List.mem_cons.mp hp with rfl | hp
    · exact hnode
    · exact h.nodes p hp
  chain := List.isChain_cons_cons.mpr ⟨hr, h.chain⟩

theorem length_le (h : g.Trail path x) : path.length ≤ g.size := by
  have hsub : path ⊆ g.keys := fun p hp => contains_iff.mp (h.nodes p hp)
  simpa [size, keys] using (h.nodup.subperm hsub).length_le

/-- A step back onto the path closes a cycle. -/
theorem isCycle (h : g.Trail path x) (hx : x ∈ path) :
    g.IsCycle (x :: (path.takeWhile (· != x)).reverse ++ [x]) := by
  obtain ⟨front, back, rfl, hfront⟩ := List.eq_append_cons_of_mem hx
  have hne : ∀ p ∈ front, (p != x) = true := fun p hp => by
    simpa using fun he : p = x => hfront (he ▸ hp)
  have htake : (front ++ x :: back).takeWhile (· != x) = front := by
    rw [List.takeWhile_append_of_pos hne]
    simp
  rw [htake]
  refine ⟨?_, x, front.reverse, rfl, ?_⟩
  · have hloop : (x :: front ++ [x]).IsChain fun a b => g.Refers b a :=
      h.chain.prefix ⟨back, by simp⟩
    have := List.isChain_reverse.mpr hloop
    simpa using this
  · have hnodup := h.nodup.sublist (List.sublist_append_left front (x :: back))
    simpa using ⟨hfront, hnodup⟩

end Trail

/-- The bound on the depth is spent one by one along the path, so it lasts. -/
theorem walk_outcome {fuel : Nat} {path done : List Text} (hfuel : g.size < path.length + fuel)
    (htrail : g.Trail path x) (hdone : g.Settled done) (hfree : ∀ p ∈ path, p ∉ done) :
    g.Outcome path done [x] (g.walk fuel path done x) := by
  induction fuel generalizing path done x with
  | zero =>
    have := htrail.length_le
    omega
  | succ fuel ih =>
    unfold walk
    by_cases hpath : path.contains x = true
    · rw [if_pos hpath]
      exact htrail.isCycle (List.contains_iff_mem.mp hpath)
    rw [if_neg hpath]
    have hx : x ∉ path := fun h => hpath (List.contains_iff_mem.mpr h)
    by_cases hskip : (done.contains x || !g.contains x) = true
    · rw [if_pos hskip]
      refine ⟨hdone, List.Subset.refl _, hfree, fun y hy hnode => ?_⟩
      rw [List.mem_singleton] at hy
      subst hy
      simpa [hnode] using hskip
    rw [if_neg hskip]
    simp only [Bool.or_eq_true, Bool.not_eq_true', not_or, Bool.not_eq_false,
      List.contains_iff_mem] at hskip
    obtain ⟨hfresh, hnode⟩ := hskip
    have hfree' : ∀ p ∈ x :: path, p ∉ done := by
      intro p hp
      rcases List.mem_cons.mp hp with rfl | hp
      · exact hfresh
      · exact hfree p hp
    have hstep : ∀ y ∈ g.references x, ∀ done, g.Settled done → (∀ p ∈ x :: path, p ∉ done) →
        g.Outcome (x :: path) done [y] (g.walk fuel (x :: path) done y) :=
      fun y hy done hdone hfree => ih (by simp only [List.length_cons]; omega)
        (htrail.step hx hnode hy) hdone hfree
    have hrefs := outcome_foldlM hstep hdone hfree'
    cases hr : (g.references x).foldlM (fun seen y => g.walk fuel (x :: path) seen y) done with
    | error c =>
      rw [hr] at hrefs
      exact hrefs
    | ok more =>
      rw [hr] at hrefs
      obtain ⟨hmore, hsub, hfree'', hin⟩ := hrefs
      have hxmore : x ∉ more := hfree'' x (by simp)
      refine ⟨⟨hxmore, hnode, fun y hy => hin y hy, hmore⟩,
        List.Subset.trans hsub (List.subset_cons_self x more), fun p hp => ?_, by simp⟩
      have hpx : p ≠ x := fun he => hx (he ▸ hp)
      simpa [hpx] using hfree'' p (List.mem_cons_of_mem x hp)

/-! ### Cycles and orders of the whole graph -/

/-- The walk over all nodes, from which both the cycle and the order are read. -/
def walkAll (g : Graph) : Except (List Text) (List Text) :=
  g.keys.foldlM (fun seen x => g.walk (g.size + 1) [] seen x) []

theorem walkAll_outcome (g : Graph) : g.Outcome [] [] g.keys g.walkAll :=
  outcome_foldlM (fun _ _ _ hdone hfree => walk_outcome (by simp) Trail.start hdone hfree)
    trivial (by simp)

theorem cycle?_eq (g : Graph) :
    g.cycle? = match g.walkAll with | .error c => some c | .ok _ => none := rfl

theorem isCycle_of_cycle? {c : List Text} (h : g.cycle? = some c) : g.IsCycle c := by
  have ho := g.walkAll_outcome
  rw [cycle?_eq] at h
  cases hw : g.walkAll with
  | error c' =>
    rw [hw] at h ho
    obtain rfl : c' = c := by simpa using h
    exact ho
  | ok done => simp [hw] at h

/-- The search finds a cycle exactly when there is one. -/
theorem cycle?_eq_none_iff : g.cycle? = none ↔ g.Acyclic := by
  constructor
  · intro h x hx
    have ho := g.walkAll_outcome
    rw [cycle?_eq] at h
    cases hw : g.walkAll with
    | error c => simp [hw] at h
    | ok done =>
      rw [hw] at ho
      obtain ⟨hdone, -, -, hin⟩ := ho
      obtain ⟨y, hy, -⟩ := TransGen.head'_iff.mp hx
      have hnode := contains_of_refers hy
      exact hdone.not_cyclic (hin x (contains_iff.mp hnode) hnode) hx
  · intro h
    cases hc : g.cycle? with
    | none => rfl
    | some c =>
      obtain ⟨x, hx⟩ := (isCycle_of_cycle? hc).transGen
      exact absurd hx (h x)

theorem probe_eq_none_iff {refs : List Text} :
    g.probe x refs = none ↔ (g.insert x refs).Acyclic := cycle?_eq_none_iff

/-! ## References tried out

References that are given to a name for a time leave the graph as it was, its order
included. On a graph without cycles they close one just if a chain from them comes
back to the name along the references of other nodes.
-/

variable {refs : List Text}

/-! ### Insertion taken back -/

theorem erase_insert (h : g.contains x = false) : (g.insert x refs).erase x = g := by
  have hother : ∀ n ∈ g.nodes, (n.1 != x) = true := by
    intro n hn
    rw [bne_iff_ne]
    rintro rfl
    exact Bool.false_ne_true (h ▸ contains_iff.mpr (List.mem_map_of_mem hn))
  unfold insert erase
  rw [if_neg (by simp [h]), List.filter_append, List.filter_eq_self.mpr hother]
  simp

/-- Of two insertions the last one counts. -/
theorem insert_insert (h : g.contains x = true) (refs' : List Text) :
    (g.insert x refs).insert x refs' = g.insert x refs' := by
  have hkeys : (g.insert x refs).contains x = true := by
    rw [contains_iff, keys_insert, if_pos h]
    exact contains_iff.mp h
  rw [insert, if_pos hkeys, insert, if_pos h, insert, if_pos h, List.map_map]
  congr 1
  refine List.map_congr_left fun n _ => ?_
  by_cases hn : n.1 = x <;> simp [hn]

/-- A node that gets the references it has stays as it is, and so do the others. -/
theorem insert_self (hk : g.keys.Nodup) (h : (x, refs) ∈ g.nodes) : g.insert x refs = g := by
  have hkept : ∀ n ∈ g.nodes, (if n.1 == x then (x, refs) else n) = n := by
    intro n hn
    by_cases hx : n.1 = x
    · rw [if_pos (by simpa using hx)]
      exact List.inj_on_of_nodup_map hk h hn hx.symm
    · rw [if_neg (by simpa using hx)]
  rw [insert, if_pos (contains_iff.mpr (List.mem_map_of_mem h)), List.map_congr_left hkept,
    List.map_id']

theorem tryOut_eq (hk : g.keys.Nodup) : g.tryOut x refs = ((g.insert x refs).cycle?, g) := by
  unfold tryOut
  cases hf : g.nodes.find? (fun n => n.1 == x) with
  | none =>
    have hnew : g.contains x = false := by
      rw [contains, List.any_eq_false]
      exact List.find?_eq_none.mp hf
    exact Prod.ext rfl (erase_insert hnew)
  | some n =>
    have hn := List.mem_of_find?_eq_some hf
    obtain rfl : n.1 = x := by simpa using List.find?_some hf
    have hback : (g.insert n.1 refs).insert n.1 n.2 = g := by
      rw [insert_insert (contains_iff.mpr (List.mem_map_of_mem hn)), insert_self hk hn]
    exact Prod.ext rfl hback

/-! ### Cycles through the changed node -/

/-- Up to its first visit to `x`, a chain goes along references of other nodes. -/
theorem eq_or_transGen_of_insert (h : ReflTransGen (g.insert x refs).Refers y x) :
    y = x ∨ TransGen (g.erase x).Refers y x := by
  induction h using ReflTransGen.head_induction_on with
  | refl => exact Or.inl rfl
  | @head y z hr _ ih =>
    by_cases hy : y = x
    · exact Or.inl hy
    · rw [refers_insert, if_neg hy] at hr
      have hold : (g.erase x).Refers y z := refers_erase.mpr ⟨hy, hr⟩
      rcases ih with rfl | hz
      · exact Or.inr (.single hold)
      · exact Or.inr (.head hold hz)

/-- A chain that does not visit `x` before its end goes along old references only. -/
theorem transGen_of_insert {z : Text} (h : TransGen (g.insert x refs).Refers y z) :
    TransGen g.Refers y z ∨
      ReflTransGen (g.insert x refs).Refers y x ∧ TransGen (g.insert x refs).Refers x z := by
  induction h using TransGen.head_induction_on with
  | @single y hr =>
    by_cases hy : y = x
    · subst hy
      exact Or.inr ⟨.refl, .single hr⟩
    · rw [refers_insert, if_neg hy] at hr
      exact Or.inl (.single hr)
  | @head y w hr hrest ih =>
    by_cases hy : y = x
    · subst hy
      exact Or.inr ⟨.refl, .head hr hrest⟩
    · rcases ih with hw | ⟨hw, hz⟩
      · rw [refers_insert, if_neg hy] at hr
        exact Or.inl (.head hr hw)
      · exact Or.inr ⟨.head hr hw, hz⟩

/-- A cycle that was not there before goes through the changed node. -/
theorem Acyclic.insert_iff (h : g.Acyclic) : (g.insert x refs).Acyclic ↔
    x ∉ refs ∧ ∀ y ∈ refs, ¬ TransGen (g.erase x).Refers y x := by
  have hnew : ∀ y ∈ refs, (g.insert x refs).Refers x y := by
    intro y hy
    rw [refers_insert, if_pos rfl]
    exact hy
  constructor
  · intro hacyclic
    refine ⟨fun hx => hacyclic x (.single (hnew x hx)), fun y hy hback => ?_⟩
    refine hacyclic x (.head (hnew y hy) (TransGen.mono (fun a b hab => ?_) _ _ hback))
    obtain ⟨ha, hab⟩ := refers_erase.mp hab
    rw [refers_insert, if_neg ha]
    exact hab
  · rintro ⟨hself, hback⟩ z hz
    -- The cycle is an old one, or it can be started at `x` and ends at its first return to `x`.
    rcases transGen_of_insert hz with hz | ⟨hzx, hxz⟩
    · exact h z hz
    · obtain ⟨y, hxy, hyx⟩ := TransGen.head'_iff.mp (hxz.trans_left hzx)
      rw [refers_insert, if_pos rfl] at hxy
      rcases eq_or_transGen_of_insert hyx with rfl | hyx
      · exact hself hxy
      · exact hback y hxy hyx

/-- Trying references out finds the cycle that the changed graph has, and gives the graph back as
it was. Where there was no cycle, there is none still unless the name is among its references or
one of them leads back to it along the references of other nodes. -/
theorem tryOut_decides (g : Graph) (hk : g.keys.Nodup) (x : Text) (refs : List Text) :
    g.tryOut x refs = ((g.insert x refs).cycle?, g) ∧
    (g.Acyclic → ((g.tryOut x refs).1 = none ↔
      x ∉ refs ∧ ∀ y ∈ refs, ¬ TransGen (g.erase x).Refers y x)) := by
  refine ⟨tryOut_eq hk, fun h => ?_⟩
  rw [tryOut_eq hk, ← h.insert_iff]
  exact cycle?_eq_none_iff

/-- `b` gets a reference that leads back to it, and then one that leads nowhere. -/
theorem tryOut_decides_for_node :
    let g : Graph := ⟨[(text "a", [text "b"]), (text "b", [])]⟩
    g.tryOut (text "b") [text "a"] = (some [text "a", text "b", text "a"], g) ∧
      TransGen (g.erase (text "b")).Refers (text "a") (text "b") ∧
      g.tryOut (text "b") [text "c"] = (none, g) ∧
      ¬ TransGen (g.erase (text "b")).Refers (text "c") (text "b") := by
  intro g
  have hacyclic : g.Acyclic := cycle?_eq_none_iff.mp (by decide +kernel)
  obtain ⟨hloop, hback⟩ := tryOut_decides g (by decide +kernel) (text "b") [text "a"]
  obtain ⟨hopen, hnowhere⟩ := tryOut_decides g (by decide +kernel) (text "b") [text "c"]
  have hcycle : (g.insert (text "b") [text "a"]).cycle? =
      some [text "a", text "b", text "a"] := by decide +kernel
  have hnone : (g.insert (text "b") [text "c"]).cycle? = none := by decide +kernel
  rw [hcycle] at hloop
  rw [hnone] at hopen
  refine ⟨hloop, ?_, hopen, ((hnowhere hacyclic).mp (by rw [hopen])).2 _ (by simp)⟩
  by_contra hfree
  have := (hback hacyclic).mpr ⟨by decide, by simpa using hfree⟩
  rw [hloop] at this
  cases this

end Formulary.Graph
