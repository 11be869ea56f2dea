import Formulary.Proofs.Binding.Beside
import Formulary.Proofs.Sheet.Taken

/-! # Independent definitions

Two texts are independent if each defines a name that is not in use and that the
other does not mention. After one of them has been accepted, the other has the same
plan as before, but for the missing names that were created with the first.
-/

namespace Formulary

/-- The name that a text defines, unless it defines a plot or cannot be read. -/
def Plan.defined (r : Reading) (raw : Text) : List Name :=
  match read r raw with
  | .ok (head, _) => if head.kind = .anonymous then [] else [head.name]
  | .error _ => []

namespace Sheet

variable {s : Sheet} {raw A B : Text} {name : Name} {p q : Plan} {head : Head} {right : Text}

/-- The formals of a text, and the atoms and calls of its right-hand side. -/
def mentions (s : Sheet) (raw : Text) : List Name :=
  match Plan.read s.reading raw with
  | .ok (head, right) => head.formals ++ Formula.mentioned s.reading.lexicon
      (Plan.functionNames s.liveNames s.definitions.arities head) right
  | .error _ => []

/-- The names that the texts define are not in use and differ, and neither text mentions that of the
other. -/
structure Independent (s : Sheet) (A B : Text) : Prop where
  newLeft : ∀ n ∈ Plan.defined s.reading A, s.liveNames.contains n = false
  newRight : ∀ n ∈ Plan.defined s.reading B, s.liveNames.contains n = false
  distinct : ∀ n ∈ Plan.defined s.reading A, n ∉ Plan.defined s.reading B
  left : ∀ n ∈ Plan.defined s.reading A, n ∉ s.mentions B
  right : ∀ n ∈ Plan.defined s.reading B, n ∉ s.mentions A

theorem Independent.symm (hi : s.Independent A B) : s.Independent B A where
  newLeft := hi.newRight
  newRight := hi.newLeft
  distinct n hn hn' := hi.distinct n hn' hn
  left := hi.right
  right := hi.left

theorem mem_defined (hread : Plan.read s.reading raw = .ok (head, right)) :
    name ∈ Plan.defined s.reading raw ↔ head.kind ≠ .anonymous ∧ name = head.name := by
  unfold Plan.defined
  rw [hread]
  by_cases hk : head.kind = .anonymous <;> simp [hk]

theorem mem_mentions (hread : Plan.read s.reading raw = .ok (head, right)) :
    name ∈ s.mentions raw ↔ name ∈ head.formals ∨ name ∈ Formula.mentioned s.reading.lexicon
      (Plan.functionNames s.liveNames s.definitions.arities head) right := by
  unfold mentions
  rw [hread]
  exact List.mem_append

theorem Plans.assembled (hp : s.Plans raw false p) : ∃ right,
    Plan.read s.reading raw = .ok (p.head, right) ∧
      Plan.Assembled s.reading s.liveNames s.definitions.arities p.head right p := by
  obtain ⟨head, right, hread, ha⟩ := Plan.plan_eq_ok.mp (plans_false.mp hp)
  obtain rfl := ha.sameHead
  exact ⟨right, hread, ha⟩

theorem Plans.mem_mentions_of_mem_dependencies (hp : s.Plans raw false p)
    (hn : name ∈ p.dependencies) : name ∈ s.mentions raw := by
  obtain ⟨right, hread, ha⟩ := hp.assembled
  exact (mem_mentions hread).mpr (Or.inr (ha.mentioned_of_mem_dependencies hn))

theorem Plans.mem_defined (hp : s.Plans raw false p) :
    name ∈ Plan.defined s.reading raw ↔ p.head.kind ≠ .anonymous ∧ name = p.head.name := by
  obtain ⟨right, hread, -⟩ := hp.assembled
  exact Sheet.mem_defined hread

theorem Consistent.offers (h : s.Consistent) (hp : s.Plans raw false p)
    (hnew : ∀ n ∈ Plan.defined s.reading raw, s.liveNames.contains n = false) :
    s.Offers raw p := by
  refine ⟨hp, fun hk => ?_⟩
  have hlive := hnew p.head.name (hp.mem_defined.mpr ⟨hk, rfl⟩)
  rw [← Bool.not_eq_true, h.contains_liveNames, not_or] at hlive
  exact hlive

theorem Consistent.known_functions (h : s.Consistent) :
    ∀ n ∈ s.liveNames.functions, n ∈ s.definitions.arities.names := by
  intro n hn
  have hmem : n ∈ (s.contextFor [] false).live.functions ↔
      n ∈ s.definitions.names ∧ some n ≠ (s.contextFor [] false).replaced := h.mem_functions
  rw [contextFor_false] at hmem
  rw [h.definitions.names_arities]
  exact (hmem.mp hn).1

/-! ### After one of the texts -/

section
variable (hi : s.Independent A B) (h : s.Consistent) (ho : s.Offers A p)
  (ht : (s.take A p).Consistent)

include hi h ho ht

/-- What the other text defines is still new. -/
theorem Independent.new_take :
    ∀ n ∈ Plan.defined s.reading B, (s.take A p).liveNames.contains n = false := by
  intro n hn
  rw [← Bool.not_eq_true, h.live_take ho ht]
  rintro (hlive | hm | ⟨hk, rfl⟩)
  · rw [hi.newRight n hn] at hlive
    cases hlive
  · refine hi.right n hn (ho.plans.mem_mentions_of_mem_dependencies ?_)
    exact (ho.plans.mem_missing.mp hm).1
  · exact hi.distinct _ (ho.plans.mem_defined.mpr ⟨hk, rfl⟩) hn

omit hi in
/-- Functions keep their arity when another definition is taken. -/
theorem Consistent.arity_take (hn : name ∈ s.definitions.arities.names) :
    (s.take A p).definitions.arities.get? name = s.definitions.arities.get? name := by
  rw [← Formula.Arities.isSome_get?] at hn
  obtain ⟨n, hn⟩ := Option.isSome_iff_exists.mp hn
  obtain ⟨row, hrow, -⟩ := Option.map_eq_some_iff.mp hn
  rw [Formula.Arities.get?, Formula.Arities.get?, ht.definitions.arities_eq, h.named_take ho,
    List.map_append, List.find?_append, ← h.definitions.arities_eq, hrow]
  rfl

/-- The other text does not mention the function that is new. -/
theorem Independent.beside (head : Head) (right : Text)
    (hread : Plan.read s.reading B = .ok (head, right)) :
    Plan.Beside s.reading head right s.liveNames s.definitions.arities
      (s.take A p).liveNames (s.take A p).definitions.arities := by
  refine ⟨h.known_functions, ht.known_functions, fun n => h.arity_take ho ht, fun n hn hno =>
    ?_, ?_⟩
  · rw [ht.definitions.names_arities, h.mem_functions_take ho] at hn
    rw [h.definitions.names_arities] at hno
    obtain ⟨hk, rfl⟩ := hn.resolve_left hno
    have hdefined := ho.plans.mem_defined.mpr ⟨by simp [hk], rfl⟩
    refine ⟨spelled_head ho.plans (by simp [hk]), fun hm => ?_⟩
    exact hi.left _ hdefined ((mem_mentions hread).mpr (Or.inr hm))
  · have hchange : ∀ {live : LiveNames},
        (∀ n ∈ Plan.defined s.reading B, live.contains n = false) →
          Plan.change s.reading live head = .ok none := by
      intro live hnew
      rw [Plan.change, if_pos]
      by_cases hk : head.kind = .anonymous
      · simp [hk]
      · simp [hnew head.name ((mem_defined hread).mpr ⟨hk, rfl⟩)]
    rw [hchange hi.newRight, hchange (hi.new_take h ho ht)]

/-- The other text has a plan now just if it had one before. -/
theorem Independent.plans_take :
    (s.take A p).Plans B false (q.against (s.take A p).liveNames) ↔
      s.Plans B false (q.against s.liveNames) := by
  rw [plans_false, plans_false, reading_take]
  exact Plan.plan_against (hi.beside h ho ht)

/-- What was created with one text is not missing for the other. -/
theorem Independent.missing_take (hq : s.Plans B false q) :
    (q.against (s.take A p).liveNames).missing =
      q.missing.filter fun n => !p.missing.contains n := by
  have hmissing : q.missing = q.dependencies.filter fun d => !s.liveNames.contains d := by
    obtain ⟨right, -, ha⟩ := hq.assembled
    exact ha.missing
  rw [Plan.against, hmissing, List.filter_filter]
  apply List.filter_congr
  intro n hn
  have hown : ¬ (p.head.kind ≠ .anonymous ∧ n = p.head.name) := fun hown =>
    hi.left n (ho.plans.mem_defined.mpr hown) (hq.mem_mentions_of_mem_dependencies hn)
  have hlive : (s.take A p).liveNames.contains n = true ↔ s.liveNames.contains n = true ∨
      n ∈ p.missing ∨ p.head.kind ≠ .anonymous ∧ n = p.head.name := h.live_take ho ht
  rw [or_iff_left hown, ← List.contains_iff_mem, ← Bool.or_eq_true, ← Bool.eq_iff_iff] at hlive
  rw [hlive, Bool.not_or, Bool.and_comm]

end

end Sheet

end Formulary
