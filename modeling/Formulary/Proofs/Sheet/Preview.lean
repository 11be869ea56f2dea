import Formulary.Proofs.Sheet.Accepted
import Formulary.Proofs.Sheet.Structure

/-! # Refused texts

A refused text leaves parameters, definitions and graph as they were. The one
exception is a number too large for a parameter under the name of a function that
nothing else calls: the function is taken away first, and does not come back.
-/

namespace Formulary.Sheet

variable {s t : Sheet} {raw : Text} {redefine : Bool} {p : Plan}

/-- Entering the text takes a function away although the text is refused. -/
def LosesFunction (s : Sheet) (raw : Text) (redefine : Bool) : Prop := ∃ p, s.Loses raw redefine p

/-- Without the function the definitions are other ones. -/
theorem Loses.not_sameContent (hl : s.Loses raw redefine p)
    (ht : SameContent (s.without p.head.name) t) : ¬ SameContent s t := by
  intro hsame
  have hentries : (s.without p.head.name).definitions.entries = s.definitions.entries :=
    ht.definitions.symm.trans hsame.definitions
  obtain ⟨d, hd, hk, hname⟩ := DefinitionBook.mem_names.mp hl.function
  rw [← hentries] at hd
  exact (mem_without.mp hd).2 ((node_of_not_isAnonymous hk).trans hname)

/-- A refused text changes nothing but the counters, unless it takes a function away; then the
function and its node are gone, and nothing else. -/
theorem refused_unchanged_iff (r : Reading) (actions : List Action) (raw : Text)
    (redefine : Bool)
    (hrefused : (((empty r).run actions).enter raw redefine).1.isAccepted = false) :
    let s := (empty r).run actions
    let t := (s.enter raw redefine).2
    (SameContent s t ↔ ¬ s.LosesFunction raw redefine) ∧
      ∀ p, s.Loses raw redefine p → SameContent (s.without p.head.name) t := by
  intro s t
  have h : s.Consistent := consistent_run r actions
  have hentered := h.entered raw redefine
  have hresult : s.enter raw redefine = ((s.enter raw redefine).1, t) := rfl
  rw [hresult] at hentered
  cases hout : (s.enter raw redefine).1 with
  | accepted a => simp [s, hout, Outcome.isAccepted] at hrefused
  | refused refusal =>
    rw [hout] at hentered
    cases hentered with
    | unchanged hkept hsame =>
      refine ⟨⟨?_, fun _ => hsame⟩, fun p hl => absurd hl (hkept p)⟩
      rintro - ⟨p, hl⟩
      exact hkept p hl
    | lost hl hsame =>
      refine ⟨⟨fun hno => absurd hno (hl.not_sameContent hsame), ?_⟩, fun p' hl' => ?_⟩
      · exact fun hno => absurd ⟨_, hl⟩ hno
      · obtain rfl := hl.plans.unique hl'.plans
        exact hsame

/-- The sheet with a function `f` alone. -/
def withIdentity : Sheet := (empty {}).run [.enter (text "f(x) = x") false]

/-- A refused number takes the function of its name away. -/
theorem refused_number_takes_function :
    (withIdentity.enter (text "f = 1e999") false).1.isAccepted = false ∧
      ¬ SameContent withIdentity (withIdentity.enter (text "f = 1e999") false).2 := by
  refine ⟨by decide +kernel, fun hsame => ?_⟩
  have hentries : withIdentity.definitions.entries.length = 1 := by decide +kernel
  rw [← hsame.definitions] at hentries
  exact absurd hentries (by decide +kernel)

theorem refused_unchanged_iff_for_identity :
    (withIdentity.enter (text "f = 1e999") false).1.isAccepted = false ∧
      (SameContent withIdentity (withIdentity.enter (text "f = 1e999") false).2 ↔
        ¬ withIdentity.LosesFunction (text "f = 1e999") false) := by
  have hrefused : (withIdentity.enter (text "f = 1e999") false).1.isAccepted = false := by
    decide +kernel
  exact ⟨hrefused, (refused_unchanged_iff {} [.enter (text "f(x) = x") false]
    (text "f = 1e999") false hrefused).1⟩

end Formulary.Sheet

/-! ## Previews come true

A preview pretends to create what is missing. Entering the same text on a sheet is
refused for the same reason, or it ends as the preview says, unless the sheet
refuses to store what was bound.
-/

namespace Formulary

theorem askAll_willing (live : LiveNames) (names : List Name) (resolved : List (Name × Name)) :
    Binding.askAll (Provider.willing live) resolved names () =
      (.ok (resolved ++ names.map fun n => (n, n)), ()) := by
  induction names generalizing resolved with
  | nil => rw [Binding.askAll, List.map_nil, List.append_nil]
  | cons name names ih =>
    have hask : (Provider.willing live).ask name () = (.created name, ()) := rfl
    rw [Binding.askAll, hask]
    simp only [ih, List.map_cons, List.append_assoc, List.singleton_append]

/-- A preview fails if there is no plan, and tells of the plan otherwise. -/
theorem preview_eq (r : Reading) (live : LiveNames) (arities : Formula.Arities) (raw : Text) :
    preview r live arities raw = match plan r live arities raw with
      | .error e => .ofError e
      | .ok p => .accepted (p.accepted []) := by
  unfold preview bind
  cases hplan : plan r live arities raw with
  | error e => rfl
  | ok p =>
    let b : Bound Name := ⟨p, p.missing.map fun n => (n, n)⟩
    have hcreated : b.created = p.missing := (List.map_map ..).trans (List.map_id _)
    have hbound : (Binding.ofPlan (some (Provider.willing live)) live p ()).1 = .ok b := by
      simp only [Binding.ofPlan, askAll_willing, List.nil_append]
      exact Binding.finish_of_plan hplan hcreated
    simp only [hbound]
    exact Outcome.ofBound_eq hcreated []

namespace Sheet

variable {s : Sheet} {raw : Text}

/-- A text without a plan is refused for the reason that planning gives. -/
theorem enter_of_error {e : BindError}
    (he : plan s.reading s.liveNames s.definitions.arities raw = .error e) :
    s.enter raw false = (.ofError e, s) := by
  rw [enter_eq, bound, contextFor_false, bind, he]
  simp only [createdBefore_of_plan he]
  rfl

/-- A preview against the names in use tells what entering a text will do. If it is refused, the
text is refused for the same reason and the sheet stays as it is. Otherwise the text is accepted as
the preview says, or what was bound is refused when it is stored. -/
theorem enter_preview (r : Reading) (actions : List Action) (raw : Text) :
    let s := (empty r).run actions
    match preview r s.liveNames s.definitions.arities raw with
    | .refused refusal => s.enter raw false = (.refused refusal, s)
    | .accepted a =>
      match (s.enter raw false).1 with
      | .accepted b => { b with warnings := [] } = a
      | .refused refusal => refusal.code ∈ ["CIRCULAR_DEPENDENCY", "IN_USE",
          "WRONG_ARGUMENT_COUNT", "INVALID_VALUE", "DUPLICATE_PARAMETER"] := by
  intro s
  have h : s.Consistent := consistent_run r actions
  have hr : s.reading = r := reading_run r actions
  rw [preview_eq, ← hr]
  cases hplan : plan s.reading s.liveNames s.definitions.arities raw with
  | error e => exact enter_of_error hplan
  | ok p =>
    have hp : s.Plans raw false p := plans_false.mpr hplan
    have hf := h.fresh_of_plans hp
    dsimp only
    rw [h.enter_of_fresh hp hf]
    rcases hstore : (s.withAutos p.missing).store p raw (s.contextFor raw false).replaced with
      ⟨e | u, t⟩
    · exact h.code_of_store hp hf hstore
    · rfl

end Sheet

end Formulary
