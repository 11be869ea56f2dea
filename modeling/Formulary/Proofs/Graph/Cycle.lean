import Formulary.Proofs.Graph.Walk

/-! # The search for a cycle ends

The search is told here without a bound on its depth, as a relation that has a
derivation only where the search ends. It ends on every graph, in one way, and
the bounded walk is that search: the bound is never reached.
-/

namespace Formulary.Graph

open Relation

/-- A search through names that ends, with the cycle it meets first or with all finished nodes.
The first list is the path to the names, the last step first, the second holds the nodes finished
before. -/
inductive Ends (g : Graph) :
    List Text → List Text → List Text → Except (List Text) (List Text) → Prop where
  | nil {path done : List Text} : Ends g path done [] (.ok done)
  | closes {x : Text} {path done rest : List Text} (hx : x ∈ path) :
      Ends g path done (x :: rest) (.error (x :: (path.takeWhile (· != x)).reverse ++ [x]))
  | skips {x : Text} {path done rest : List Text} {result : Except (List Text) (List Text)}
      (hx : x ∉ path) (hskip : x ∈ done ∨ g.contains x = false)
      (hrest : Ends g path done rest result) : Ends g path done (x :: rest) result
  | fails {x : Text} {path done rest c : List Text}
      (hx : x ∉ path) (hfresh : x ∉ done) (hnode : g.contains x = true)
      (hrefs : Ends g (x :: path) done (g.references x) (.error c)) :
      Ends g path done (x :: rest) (.error c)
  | finishes {x : Text} {path done rest mid : List Text}
      {result : Except (List Text) (List Text)}
      (hx : x ∉ path) (hfresh : x ∉ done) (hnode : g.contains x = true)
      (hrefs : Ends g (x :: path) done (g.references x) (.ok mid))
      (hrest : Ends g path (x :: mid) rest result) : Ends g path done (x :: rest) result

variable {g : Graph} {x : Text} {path done names : List Text}

namespace Ends

variable {result other : Except (List Text) (List Text)}

/-- A node under way is neither skipped nor entered, and a skipped one is not entered. -/
theorem unique (h : g.Ends path done names result) (h' : g.Ends path done names other) :
    result = other := by
  induction h generalizing other with
  | nil => cases h'; rfl
  | closes hx =>
    cases h' with
    | closes => rfl
    | skips hx' => exact absurd hx hx'
    | fails hx' => exact absurd hx hx'
    | finishes hx' => exact absurd hx hx'
  | skips hx hskip _ ih =>
    cases h' with
    | closes hx' => exact absurd hx' hx
    | skips _ _ hrest => exact ih hrest
    | fails _ hfresh hnode => simp [hfresh, hnode] at hskip
    | finishes _ hfresh hnode => simp [hfresh, hnode] at hskip
  | fails hx hfresh hnode _ ih =>
    cases h' with
    | closes hx' => exact absurd hx' hx
    | skips _ hskip => simp [hfresh, hnode] at hskip
    | fails _ _ _ hrefs => exact ih hrefs
    | finishes _ _ _ hrefs => cases ih hrefs
  | finishes hx hfresh hnode _ _ ih ihrest =>
    cases h' with
    | closes hx' => exact absurd hx' hx
    | skips _ hskip => simp [hfresh, hnode] at hskip
    | fails _ _ _ hrefs => cases ih hrefs
    | finishes _ _ _ hrefs hrest =>
      cases ih hrefs
      exact ihrest hrest

/-- A cycle met in the first name ends the search. -/
theorem error_cons {c : List Text} (h : g.Ends path done [x] (.error c)) (rest : List Text) :
    g.Ends path done (x :: rest) (.error c) := by
  cases h with
  | closes hx => exact .closes hx
  | skips _ _ hrest => cases hrest
  | fails hx hfresh hnode hrefs => exact .fails hx hfresh hnode hrefs
  | finishes _ _ _ _ hrest => cases hrest

theorem ok_cons {mid rest : List Text} (h : g.Ends path done [x] (.ok mid))
    (hrest : g.Ends path mid rest result) : g.Ends path done (x :: rest) result := by
  cases h with
  | skips hx hskip hnil =>
    cases hnil
    exact .skips hx hskip hrest
  | finishes hx hfresh hnode hrefs hnil =>
    cases hnil
    exact .finishes hx hfresh hnode hrefs hrest

/-- Searches that each end are one search that ends. -/
theorem foldlM {step : List Text → Text → Except (List Text) (List Text)}
    (hstep : ∀ y ∈ names, ∀ done, g.Ends path done [y] (step done y)) :
    g.Ends path done names (names.foldlM step done) := by
  induction names generalizing done with
  | nil => exact .nil
  | cons y rest ih =>
    have hy := hstep y (by simp) done
    rw [List.foldlM_cons]
    cases hs : step done y with
    | error c =>
      rw [hs] at hy
      exact hy.error_cons rest
    | ok mid =>
      rw [hs] at hy
      exact hy.ok_cons (ih fun z hz => hstep z (List.mem_cons_of_mem y hz))

end Ends

/-- As in `walk_outcome`, the path has no room for the bound to be reached. -/
theorem walk_ends {fuel : Nat} (hfuel : g.size < path.length + fuel) (htrail : g.Trail path x) :
    g.Ends path done [x] (g.walk fuel path done x) := by
  induction fuel generalizing path done x with
  | zero =>
    have := htrail.length_le
    omega
  | succ fuel ih =>
    unfold walk
    by_cases hpath : path.contains x = true
    · rw [if_pos hpath]
      exact .closes (List.contains_iff_mem.mp hpath)
    rw [if_neg hpath]
    have hx : x ∉ path := fun h => hpath (List.contains_iff_mem.mpr h)
    by_cases hskip : (done.contains x || !g.contains x) = true
    · rw [if_pos hskip]
      exact .skips hx (by simpa using hskip) .nil
    rw [if_neg hskip]
    simp only [Bool.or_eq_true, Bool.not_eq_true', not_or, Bool.not_eq_false,
      List.contains_iff_mem] at hskip
    obtain ⟨hfresh, hnode⟩ := hskip
    have hrefs : g.Ends (x :: path) done (g.references x)
        ((g.references x).foldlM (fun seen y => g.walk fuel (x :: path) seen y) done) := by
      apply Ends.foldlM
      intro y hy done
      apply ih
      · simp only [List.length_cons]
        omega
      · exact htrail.step hx hnode hy
    cases hr : (g.references x).foldlM (fun seen y => g.walk fuel (x :: path) seen y) done with
    | error c =>
      rw [hr] at hrefs
      exact .fails hx hfresh hnode hrefs
    | ok mid =>
      rw [hr] at hrefs
      exact .finishes hx hfresh hnode hrefs .nil

theorem walkAll_ends (g : Graph) : g.Ends [] [] g.keys g.walkAll :=
  Ends.foldlM fun _ _ _ => walk_ends (by simp) Trail.start

theorem IsCycle.contains {c : List Text} (h : g.IsCycle c) (hx : x ∈ c) : g.contains x = true := by
  obtain ⟨y, hy, -⟩ := TransGen.head'_iff.mp (exists_mem_isCycle_iff.mp ⟨c, h, hx⟩)
  exact contains_of_refers hy

/-- The search ends on every graph, in one way. It finds nothing just if no path of references
leads back to its start, and else distinct nodes, each a reference of the one before it and the
first a reference of the last. -/
theorem search_decides (g : Graph) :
    (∃! result, g.Ends [] [] g.keys result) ∧
    (g.cycle? = none ↔ ∀ x, ¬ TransGen g.Refers x x) ∧
    match g.cycle? with
    | none => ∃ done, g.Ends [] [] g.keys (.ok done)
    | some c => g.Ends [] [] g.keys (.error c) ∧ c.IsChain g.Refers ∧
        ∃ a rest, c = a :: (rest ++ [a]) ∧ (a :: rest).Nodup ∧
          ∀ x ∈ a :: rest, g.contains x = true := by
  have hends := g.walkAll_ends
  refine ⟨⟨g.walkAll, hends, fun other hother => hother.unique hends⟩, cycle?_eq_none_iff, ?_⟩
  cases hc : g.cycle? with
  | none =>
    rw [cycle?_eq] at hc
    cases hw : g.walkAll with
    | error c => simp [hw] at hc
    | ok done => exact ⟨done, hw ▸ hends⟩
  | some c =>
    have hcycle := isCycle_of_cycle? hc
    obtain ⟨a, rest, hclosed, hdistinct⟩ := hcycle.closed
    have hnodes : ∀ x ∈ a :: rest, g.contains x = true := by
      intro x hx
      apply hcycle.contains
      rw [hclosed, ← List.cons_append]
      exact List.mem_append_left [a] hx
    rw [cycle?_eq] at hc
    cases hw : g.walkAll with
    | ok done => simp [hw] at hc
    | error c' =>
      obtain rfl : c' = c := by simpa [hw] using hc
      exact ⟨hw ▸ hends, hcycle.chain, a, rest, hclosed, hdistinct, hnodes⟩

end Formulary.Graph
