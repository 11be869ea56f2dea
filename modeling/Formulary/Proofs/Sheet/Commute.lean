import Formulary.Proofs.Sheet.Independent
import Formulary.Proofs.Sheet.Renamed

/-! # The order of independent definitions

Two independent texts can be entered in either order. The sheets that they leave
behind have the same content up to order, roles and ids, and the ids differ as the
two definitions were numbered the other way round.
-/

namespace Formulary

namespace Sheet

open DefinitionBook (idFor)

variable {s : Sheet} {A B raw : Text} {p q : Plan}

/-! ### Both definitions -/

/-- Both texts are accepted, one after the other. -/
def TakesBoth (s : Sheet) (A B : Text) : Prop :=
  (s.enter A false).1.isAccepted = true ∧ ((s.enter A false).2.enter B false).1.isAccepted = true

/-- Nothing stands in the way of the first plan, and then of the second. -/
structure Joint (s : Sheet) (A B : Text) (p q : Plan) : Prop where
  left : s.Offers A p
  right : s.Offers B q
  takesLeft : s.Takes A p
  takesRight : (s.take A p).Takes B (q.against (s.take A p).liveNames)

/-- The sheet with what both plans bring. -/
def takeBoth (s : Sheet) (A B : Text) (p q : Plan) : Sheet :=
  (s.take A p).take B (q.against (s.take A p).liveNames)

theorem exists_of_isAccepted {o : Outcome} (h : o.isAccepted = true) : ∃ a, o = .accepted a := by
  cases o with
  | accepted a => exact ⟨a, rfl⟩
  | refused => cases h

/-- An accepted text for a new name is one whose plan was taken. -/
theorem Consistent.taken_of_accepted (h : s.Consistent)
    (hnew : ∀ n ∈ Plan.defined s.reading raw, s.liveNames.contains n = false)
    (ha : (s.enter raw false).1.isAccepted = true) :
    ∃ p, s.Offers raw p ∧ s.Takes raw p ∧ (s.enter raw false).2 = s.take raw p := by
  obtain ⟨a, hout⟩ := exists_of_isAccepted ha
  have henter : s.enter raw false = (.accepted a, (s.enter raw false).2) := Prod.ext hout rfl
  obtain ⟨p, hp, -⟩ := h.plan_of_accepted henter
  have ho := h.offers hp hnew
  have ht := h.takes_of_accepted ho ha
  obtain ⟨a', htaken⟩ := h.enter_of_takes ho ht
  exact ⟨p, ho, ht, congrArg Prod.snd htaken⟩

theorem Plans.against_live (hp : s.Plans raw false p) : p.against s.liveNames = p :=
  Plan.against_of_plan (plans_false.mp hp)

theorem Independent.offers_take (hi : s.Independent A B) (h : s.Consistent) (ho : s.Offers A p)
    (ht : (s.take A p).Consistent) (hq : s.Plans B false q) :
    (s.take A p).Offers B (q.against (s.take A p).liveNames) := by
  refine ht.offers ((hi.plans_take h ho ht).mpr ?_) ?_
  · rw [hq.against_live]
    exact hq
  · rw [reading_take]
    exact hi.new_take h ho ht

theorem Independent.exists_joint (hi : s.Independent A B) (h : s.Consistent)
    (hb : s.TakesBoth A B) : ∃ p q, s.Joint A B p q := by
  obtain ⟨p, ho, ht, hsheet⟩ := h.taken_of_accepted hi.newLeft hb.1
  have ht' := h.taken ho ht
  have hsecond := hb.2
  rw [hsheet] at hsecond
  have hreading : (s.take A p).reading = s.reading := reading_take
  have hnew := hi.new_take h ho ht'
  rw [← hreading] at hnew
  obtain ⟨q, hoq, htq, -⟩ := ht'.taken_of_accepted hnew hsecond
  have hq := hoq.plans.against_live
  refine ⟨p, q.against s.liveNames, ho, ?_, ht, ?_⟩
  · refine h.offers ((hi.plans_take h ho ht').mp ?_) hi.newRight
    rw [hq]
    exact hoq.plans
  · rw [← hq] at htq
    exact htq

section
variable (hj : s.Joint A B p q) (hi : s.Independent A B) (h : s.Consistent)

include hj h

theorem Joint.taken : (s.take A p).Consistent := h.taken hj.left hj.takesLeft

include hi

theorem Joint.offers : (s.take A p).Offers B (q.against (s.take A p).liveNames) :=
  hi.offers_take h hj.left (hj.taken h) hj.right.plans

theorem Joint.takenBoth : (s.takeBoth A B p q).Consistent :=
  (hj.taken h).taken (hj.offers hi h) hj.takesRight

/-- Both texts are accepted, and bring what their plans say. -/
theorem Joint.run : s.TakesBoth A B ∧
    s.run [.enter A false, .enter B false] = s.takeBoth A B p q := by
  obtain ⟨a, hfirst⟩ := h.enter_of_takes hj.left hj.takesLeft
  obtain ⟨b, hsecond⟩ := (hj.taken h).enter_of_takes (hj.offers hi h) hj.takesRight
  refine ⟨⟨?_, ?_⟩, ?_⟩
  · rw [hfirst]
    rfl
  · rw [hfirst, hsecond]
    rfl
  · show ((s.enter A false).2.enter B false).2 = _
    rw [hfirst, hsecond]
    rfl

theorem Joint.entries : (s.takeBoth A B p q).definitions.entries =
    s.definitions.entries ++ s.definitionsFor A p ++
      (s.take A p).definitionsFor B (q.against (s.take A p).liveNames) := by
  rw [takeBoth, (hj.taken h).entries_take (hj.offers hi h), h.entries_take hj.left]

/-- What the second plan brings, renamed, is what it would bring as the first. -/
theorem Joint.renamed :
    (s.definitionsFor B q).map (Definition.renamed (swapIds s.definitions.nextId p q)) =
        (s.take A p).definitionsFor B (q.against (s.take A p).liveNames) ∧
      ((s.take A p).definitionsFor B (q.against (s.take A p).liveNames)).map
        (Definition.renamed (swapIds s.definitions.nextId p q)) = s.definitionsFor B q := by
  rw [swapIds_comm]
  exact hj.right.plans.renamed_definitionsFor (hj.offers hi h).plans nextId_take

end

/-! ### The other order -/

section
variable (hj : s.Joint A B p q) (hi : s.Independent A B) (h : s.Consistent) (hc : s.Current)

include hj hi h hc

theorem Joint.spelled_entries : ∀ d ∈ (s.takeBoth A B p q).definitions.entries, d.IsSpelled := by
  rw [hj.entries hi h, List.append_assoc]
  refine List.forall_mem_append.mpr ⟨hc.isSpelled h, ?_⟩
  refine List.forall_mem_append.mpr ⟨hj.left.plans.isSpelled h, ?_⟩
  exact (hj.offers hi h).plans.isSpelled (hj.taken h)

/-- The definitions there were, and that of the second plan alone, stand in the sheet with both
under other ids. -/
theorem Joint.found_right : ∀ d ∈ s.definitions.entries ++ s.definitionsFor B q, d.IsSpelled ∧
    d.renamed (swapIds s.definitions.nextId p q) ∈ (s.takeBoth A B p q).definitions.entries := by
  have hmem : ∀ d ∈ s.definitions.entries ++ s.definitionsFor B q,
      d.renamed (swapIds s.definitions.nextId p q) ∈ s.definitions.entries ++
        (s.take A p).definitionsFor B (q.against (s.take A p).liveNames) := by
    intro d hd
    have hrenamed := List.mem_map_of_mem
      (f := Definition.renamed (swapIds s.definitions.nextId p q)) hd
    rwa [List.map_append, h.renamed_entries, (hj.renamed hi h).1] at hrenamed
  have hspelled := List.forall_mem_append.mpr ⟨hc.isSpelled h, hj.right.plans.isSpelled h⟩
  intro d hd
  refine ⟨hspelled d hd, ?_⟩
  rw [hj.entries hi h, List.mem_append, List.mem_append]
  exact (List.mem_append.mp (hmem d hd)).imp_left Or.inl

/-- The second plan alone closes no chain of references. -/
theorem Joint.acyclic_right : (s.take B q).graph.Acyclic := by
  apply (hj.takenBoth hi h).acyclic_of_renamed h.toLinked.nodes_take
  · exact swapIds_of_spelled s.definitions.nextId p q
  · rw [h.entries_take hj.right]
    exact hj.found_right hi h hc

theorem Joint.takes_right : s.Takes B q := by
  refine ⟨hj.acyclic_right hi h hc, fun hk => ?_⟩
  obtain ⟨hown, hfinite⟩ := hj.takesRight.value hk
  refine ⟨fun hm => hown ?_, hfinite⟩
  -- the first text does not mention the name, so what it created does not hide it
  have hdefined := hj.right.plans.mem_defined.mpr ⟨by simp [hk], rfl⟩
  have hnot : (!p.missing.contains q.head.name) = true := by
    rw [Bool.not_eq_true', ← Bool.not_eq_true, List.contains_iff_mem]
    exact fun hp => hi.right _ hdefined
      (hj.left.plans.mem_mentions_of_mem_dependencies (hj.left.plans.mem_missing.mp hp).1)
  rw [hi.missing_take h hj.left (hj.taken h) hj.right.plans]
  exact List.mem_filter.mpr ⟨hm, hnot⟩

/-- What can be taken in one order can be taken in the other. -/
theorem Joint.symm : s.Joint B A q p := by
  have hright := hj.takes_right hi h hc
  have ht := h.taken hj.right hright
  have ho := hi.symm.offers_take h hj.right ht hj.left.plans
  refine ⟨hj.right, hj.left, hright, ?_, fun hk => ?_⟩
  · apply (hj.takenBoth hi h).acyclic_of_renamed ht.toLinked.nodes_take
    · exact swapIds_of_spelled s.definitions.nextId p q
    · rw [ht.entries_take ho, h.entries_take hj.right]
      refine List.forall_mem_append.mpr ⟨hj.found_right hi h hc, fun d hd => ?_⟩
      refine ⟨ho.plans.isSpelled ht d hd, ?_⟩
      have hrenamed := List.mem_map_of_mem
        (f := Definition.renamed (swapIds s.definitions.nextId p q)) hd
      rw [(hj.left.plans.renamed_definitionsFor ho.plans nextId_take).2] at hrenamed
      rw [hj.entries hi h, List.mem_append, List.mem_append]
      exact Or.inl (Or.inr hrenamed)
  · obtain ⟨hown, hfinite⟩ := hj.takesLeft.value hk
    refine ⟨fun hm => hown ?_, hfinite⟩
    rw [hi.symm.missing_take h hj.right ht hj.left.plans, List.mem_filter] at hm
    exact hm.1

end

/-! ### The same content -/

/-- The same content in another order, under ids of which some have changed places. -/
structure SameButOrder (s t : Sheet) : Prop where
  reading : s.reading = t.reading
  parameters : s.parameters.substance.Perm t.parameters.substance
  definitions : ∃ rename : Equiv.Perm Text, (∀ x, rename x ≠ x → ∃ k n, x = idFor k n) ∧
    (s.definitions.entries.map (Definition.renamed rename)).Perm t.definitions.entries ∧
    (s.graph.nodes.map fun n => (rename n.1, n.2)).Perm t.graph.nodes

/-- Two lists without what the first has already are as two without what the second has. -/
theorem perm_append_filter {l m : List Name} (hl : l.Nodup) (hm : m.Nodup) :
    (l ++ m.filter fun n => !l.contains n).Perm (m ++ l.filter fun n => !m.contains n) := by
  have hnodup : ∀ {l m : List Name}, l.Nodup → m.Nodup →
      (l ++ m.filter fun n => !l.contains n).Nodup := by
    intro l m hl hm
    refine List.nodup_append.mpr ⟨hl, hm.filter _, ?_⟩
    rintro n hn _ hn' rfl
    rw [List.mem_filter] at hn'
    simp [hn] at hn'
  apply (List.perm_ext_iff_of_nodup (hnodup hl hm) (hnodup hm hl)).mpr
  intro n
  simp only [List.mem_append, List.mem_filter, Bool.not_eq_true', List.contains_eq_mem,
    decide_eq_false_iff_not]
  tauto

theorem perm_append_apart {α : Type} (a b c d : List α) :
    ((a ++ b) ++ (c ++ d)).Perm ((a ++ c) ++ (d ++ b)) := by
  rw [List.append_assoc, List.append_assoc, ← List.append_assoc c]
  exact List.perm_append_comm.append_left a

section
variable (hj : s.Joint A B p q) (hi : s.Independent A B) (h : s.Consistent)

include hj hi h

/-- What both bring of parameters, a missing name being created by the first that misses it. -/
theorem Joint.substance : (s.takeBoth A B p q).parameters.substance =
    s.parameters.substance ++ (parametersFor p ++
      parametersFor { q with missing := q.missing.filter fun n => !p.missing.contains n }) := by
  have ho := hj.offers hi h
  rw [takeBoth, (hj.taken h).substance_take ho.plans, h.substance_take hj.left.plans,
    List.append_assoc, parametersFor, parametersFor,
    hi.missing_take h hj.left (hj.taken h) hj.right.plans]
  rfl

theorem Joint.perm_parameters (hj' : s.Joint B A q p) :
    (s.takeBoth A B p q).parameters.substance.Perm (s.takeBoth B A q p).parameters.substance := by
  rw [hj.substance hi h, hj'.substance hi.symm h]
  apply List.Perm.append_left
  unfold parametersFor
  have hmissing := (perm_append_filter hj.left.plans.nodup_missing
    hj.right.plans.nodup_missing).map Parameter.auto
  rw [List.map_append, List.map_append] at hmissing
  -- what is missing first, then the numbers that are bound
  have hapart := perm_append_apart (p.missing.map Parameter.auto)
  have hapart' := perm_append_apart (q.missing.map Parameter.auto)
  exact (hapart _ _ _).trans ((hmissing.append List.perm_append_comm).trans (hapart' _ _ _).symm)

theorem Joint.sameButOrder (hc : s.Current) (hj' : s.Joint B A q p) :
    SameButOrder (s.takeBoth A B p q) (s.takeBoth B A q p) where
  reading := by rw [takeBoth, takeBoth, reading_take, reading_take, reading_take, reading_take]
  parameters := hj.perm_parameters hi h hj'
  definitions := by
    have hentries : ((s.takeBoth A B p q).definitions.entries.map
        (Definition.renamed (swapIds s.definitions.nextId p q))).Perm
        (s.takeBoth B A q p).definitions.entries := by
      have hleft := (hj'.renamed hi.symm h).1
      rw [swapIds_comm] at hleft
      rw [hj.entries hi h, hj'.entries hi.symm h, List.map_append, List.map_append,
        h.renamed_entries, hleft, (hj.renamed hi h).2, List.append_assoc, List.append_assoc]
      exact List.perm_append_comm.append_left s.definitions.entries
    refine ⟨swapIds s.definitions.nextId p q, fun x hx => ?_, hentries, ?_⟩
    · by_contra hno
      push Not at hno
      exact hx (swapIds_of_ne fun k => ⟨hno k _, hno k _⟩)
    · have hnode := fun d hd => Definition.node_renamed (hj.spelled_entries hi h hc d hd)
        (swapIds_of_spelled s.definitions.nextId p q)
      have hmap := hentries.map fun d => (d.node, d.references)
      rw [(hj'.takenBoth hi.symm h).graph, (hj.takenBoth hi h).graph, List.map_map]
      rw [List.map_map] at hmap
      refine (List.map_congr_left fun d hd => ?_) ▸ hmap
      exact Prod.ext (hnode d hd) rfl

end

/-- In any sheet, independent texts are both accepted in one order just if they are in the other.
Both orders then leave the same content behind, up to order, roles and ids. -/
theorem enter_commutes (r : Reading) (actions : List Action) (A B : Text)
    (hi : ((empty r).run actions).Independent A B) :
    let s := (empty r).run actions
    (s.TakesBoth A B ↔ s.TakesBoth B A) ∧ (s.TakesBoth A B →
      SameButOrder (s.run [.enter A false, .enter B false])
        (s.run [.enter B false, .enter A false])) := by
  intro s
  have h : s.Consistent := consistent_run r actions
  have hc : s.Current := current_run r actions
  have hother : ∀ {A B : Text}, s.Independent A B → s.TakesBoth A B → s.TakesBoth B A := by
    intro A B hi hb
    obtain ⟨p, q, hj⟩ := hi.exists_joint h hb
    exact ((hj.symm hi h hc).run hi.symm h).1
  refine ⟨⟨hother hi, hother hi.symm⟩, fun hb => ?_⟩
  obtain ⟨p, q, hj⟩ := hi.exists_joint h hb
  have hj' := hj.symm hi h hc
  rw [(hj.run hi h).2, (hj'.run hi.symm h).2]
  exact hj.sameButOrder hi h hc hj'

/-- A function and a plot that miss the same name, next to a function that the first calls. -/
theorem enter_commutes_for_shared_name :
    let s := (empty {}).run [.enter (text "g(t) = t^2") false]
    s.TakesBoth (text "f(x) = a g(x)") (text "y = a x + b") ∧
      s.TakesBoth (text "y = a x + b") (text "f(x) = a g(x)") ∧
      SameButOrder
        (s.run [.enter (text "f(x) = a g(x)") false, .enter (text "y = a x + b") false])
        (s.run [.enter (text "y = a x + b") false, .enter (text "f(x) = a g(x)") false]) := by
  intro s
  have hi : s.Independent (text "f(x) = a g(x)") (text "y = a x + b") :=
    ⟨by decide +kernel, by decide +kernel, by decide +kernel, by decide +kernel, by decide +kernel⟩
  have hb : s.TakesBoth (text "f(x) = a g(x)") (text "y = a x + b") :=
    ⟨by decide +kernel, by decide +kernel⟩
  obtain ⟨hiff, hsame⟩ := enter_commutes {} [.enter (text "g(t) = t^2") false] _ _ hi
  exact ⟨hb, hiff.mp hb, hsame hb⟩

end Sheet

end Formulary
