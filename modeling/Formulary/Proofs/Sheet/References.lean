import Formulary.Proofs.Sheet.Structure

/-! # No reference dangles

Whatever a definition refers to is a parameter or a function, as long as no number
too large for a parameter is entered. So what nothing refers to can be deleted, and
nothing else can.
-/

namespace Formulary.Sheet

variable {s t : Sheet} {raw : Text} {redefine : Bool} {name : Name} {key : Text} {p : Plan}
  {a : Action} {d : Definition}

/-- Every name that a definition refers to is that of a parameter or of a function. -/
def Closed (s : Sheet) : Prop :=
  ∀ d ∈ s.definitions.entries, ∀ name ∈ d.references,
    name ∈ s.parameters.names ∨ name ∈ s.definitions.names

/-! ### Steps -/

theorem Closed.alike (hc : s.Closed) (ha : Alike s t) : t.Closed := by
  intro d hd name href
  obtain ⟨d', hd', hcore⟩ := DefinitionBook.exists_core_of_mem ha.cores hd
  have hreferences : d'.references = d.references := by
    rw [← references_core, hcore, references_core]
  rw [ha.names, DefinitionBook.names_eq_cores, ha.cores, ← DefinitionBook.names_eq_cores]
  exact hc d' hd' name (hreferences ▸ href)

/-- What nothing else refers to can be left out. -/
theorem Closed.without (hc : s.Closed) {node : Text} (hfree : ¬ s.UsedByOthers node) :
    (s.without node).Closed := by
  intro d hd name href
  obtain ⟨hold, hne⟩ := mem_without.mp hd
  rcases hc d hold name href with hn | hn
  · exact Or.inl hn
  · apply Or.inr
    rw [names_without, List.mem_filter, bne_iff_ne]
    exact ⟨hn, fun he => hfree ⟨d, hold, hne, he ▸ href⟩⟩

theorem Closed.deleteParameter (h : s.Consistent) (hc : s.Closed)
    (hname : name ∈ s.parameters.names) (hfree : ¬ s.UsedByOthers name) :
    Closed { s with parameters := s.parameters.delete name } := by
  intro d hd n href
  rcases hc d hd n href with hn | hn
  · apply Or.inl
    rw [h.parameters.names_delete, List.mem_filter, bne_iff_ne]
    refine ⟨hn, fun he => hfree ⟨d, hd, fun hnode => ?_, he ▸ href⟩⟩
    exact h.not_mem_nodes_of_parameter hname (hnode ▸ List.mem_map_of_mem hd)
  · exact Or.inr hn

/-- A function that becomes a parameter keeps its name in use. -/
theorem Closed.bindsParameter (hc : s.Closed) (hb : s.BindsParameter p t) : t.Closed := by
  intro d hd name href
  rw [hb.definitions] at hd ⊢
  rw [hb.names, names_without, List.mem_filter, bne_iff_ne]
  by_cases he : name = p.head.name
  · exact Or.inl (Or.inr (Or.inr he))
  · rcases hc d (mem_without.mp hd).1 name href with hn | hn
    · exact Or.inl (Or.inl hn)
    · exact Or.inr ⟨hn, he⟩

/-- Names in use stay in use with a new definition, and those created come into use. -/
theorem Consistent.mem_of_bindsDefinition (h : s.Consistent) (hb : s.BindsDefinition raw p t)
    (hn : (name ∈ s.parameters.names ∨ name ∈ s.definitions.names) ∨ name ∈ p.missing) :
    name ∈ t.parameters.names ∨ name ∈ t.definitions.names := by
  rw [hb.names, mem_names_of_bindsDefinition hb]
  by_cases hnew : p.head.kind ≠ .anonymous ∧ name = p.head.name
  · exact Or.inr (Or.inr hnew)
  · rcases hn with (hn | hn) | hn
    · exact Or.inl ⟨Or.inl hn, fun hk he => hnew ⟨hk, he⟩⟩
    · exact Or.inr (Or.inl ⟨hn, fun hnode => hnew (eq_head_of_node (h.spelled name hn) hnode)⟩)
    · exact Or.inl ⟨Or.inr hn, fun hk he => hnew ⟨hk, he⟩⟩

theorem Consistent.mem_of_mem_calledNames (h : s.Consistent) {rhs : Text}
    (hn : name ∈ s.calledNames rhs) : name ∈ s.definitions.names := by
  rw [calledNames, Text.mem_dedup, Formula.map_name_calls] at hn
  rw [← h.definitions.names_arities]
  exact Formula.mem_of_mem_userCalls hn

theorem Closed.bindsDefinition (h : s.Consistent) (hc : s.Closed) (hp : s.Plans raw redefine p)
    (hb : s.BindsDefinition raw p t) : t.Closed := by
  intro d hd name href
  apply h.mem_of_bindsDefinition hb
  rcases (mem_entries_of_bindsDefinition hb).mp hd with ⟨hold, -⟩ | rfl
  · exact Or.inl (hc d hold name href)
  · rcases List.mem_append.mp href with hdep | hcall
    · rcases h.dependency_cases hp hdep with hm | ⟨hn, -⟩
      · exact Or.inr hm
      · exact Or.inl hn
    · exact Or.inl (Or.inr (h.mem_of_mem_calledNames hcall))

/-- One step leaves no reference dangling, unless it takes a function away. -/
theorem Closed.of_step (h : s.Consistent) (hc : s.Closed) (hs : Step s a t)
    (hkept : ∀ raw redefine, a = .enter raw redefine → ∀ p, ¬ s.Loses raw redefine p) :
    t.Closed := by
  cases hs with
  | alike ha => exact hc.alike ha
  | definitionDropped hd hfree => exact hc.without hfree
  | parameterDropped hname hfree => exact hc.deleteParameter h hname hfree
  | functionLost hl => exact absurd hl (hkept _ _ rfl _)
  | parameterBound hp hb => exact hc.bindsParameter hb
  | definitionBound hp hb => exact hc.bindsDefinition h hp hb

/-! ### Finite numerals -/

/-- Every numeral that a text binds to a name has a finite value. -/
def FiniteNumerals (r : Reading) (actions : List Action) : Prop :=
  ∀ raw redefine, Action.enter raw redefine ∈ actions → ∀ rhs, BindsNumeral r raw rhs →
    ∀ value, Numeral.double? rhs = some value → value.isFinite = true

/-- It is enough to look at what stands to the right of each sign of equality. -/
theorem finiteNumerals_of_sides {r : Reading} {actions : List Action}
    (h : ∀ raw redefine, Action.enter raw redefine ∈ actions → ∃ left right,
      Plan.sides r raw = .ok (left, right) ∧ (Numeral.double? right).all Double.isFinite = true) :
    FiniteNumerals r actions := by
  rintro raw redefine hmem rhs ⟨left, symbol, hsides, -, -⟩ value hvalue
  obtain ⟨left', right, hsides', hall⟩ := h raw redefine hmem
  obtain ⟨-, rfl⟩ := Prod.mk.inj (Except.ok.inj (hsides.symm.trans hsides'))
  simpa [hvalue] using hall

theorem not_loses_of_finite (hfinite : ∀ rhs, BindsNumeral s.reading raw rhs →
    ∀ value, Numeral.double? rhs = some value → value.isFinite = true) :
    ¬ s.Loses raw redefine p := by
  intro hl
  have hvalue := hl.value
  unfold Plan.value at hvalue
  cases hd : Numeral.double? p.rhs with
  | none =>
    rw [hd] at hvalue
    exact absurd hvalue (by decide)
  | some value =>
    rw [hd, Option.getD_some] at hvalue
    have := hfinite p.rhs (hl.plans.planned.numeral hl.kind) value hd
    simp [hvalue] at this

theorem closed_run (r : Reading) (actions : List Action) (hfinite : FiniteNumerals r actions) :
    ((empty r).run actions).Closed := by
  refine ((consistent_empty r).run_induction (P := fun s => s.reading = r ∧ s.Closed)
    ⟨rfl, fun _ hd => absurd hd List.not_mem_nil⟩ ?_).2.2
  rintro a ha s t h hs ⟨hr, hc⟩
  refine ⟨hs.reading.trans hr, hc.of_step h hs ?_⟩
  rintro raw redefine rfl p
  exact not_loses_of_finite (hr ▸ hfinite raw redefine ha)

-- A function that is referred to without being called gives way to a number that is refused.
example : ¬ ((empty {}).run [.enter (text "f(x) = x") false, .enter (text "g(t) = f + t") false,
    .enter (text "f = 1e999") false]).Closed := by
  unfold Closed
  decide +kernel

/-! ### Deleting -/

/-- The key of a parameter, of a function or of a plot. -/
def Live (s : Sheet) (key : Text) : Prop :=
  key ∈ s.parameters.names ∨ key ∈ s.definitions.entries.map Definition.node

/-- The sheet without what has this key. -/
def withoutKey (s : Sheet) (key : Text) : Sheet :=
  { s.without key with parameters := s.parameters.delete key }

theorem Consistent.live_withoutKey (h : s.Consistent) {k : Text} :
    (s.withoutKey key).Live k ↔ s.Live k ∧ k ≠ key := by
  have hnodes : (s.withoutKey key).definitions.entries.map Definition.node =
      (s.definitions.entries.map Definition.node).filter (· != key) := Keyed.map_filter_key
  have hnames : (s.withoutKey key).parameters.names = s.parameters.names.filter (· != key) :=
    h.parameters.names_delete
  rw [Live, hnodes, hnames, List.mem_filter, List.mem_filter, bne_iff_ne, ← or_and_right]
  rfl

theorem Linked.not_spelled_id (h : s.Linked) (hd : d ∈ s.definitions.entries) :
    ¬ Spelled d.id := by
  obtain ⟨k, n, -, hid⟩ := h.definitions.issued d hd
  exact fun hs => hs.ne_idFor k n hid

theorem Linked.lookup?_node (h : s.Linked) (hd : d ∈ s.definitions.entries) :
    s.definitions.lookup? d.node = some d := by
  cases hk : d.isAnonymous with
  | false =>
    rw [node_of_not_isAnonymous hk, DefinitionBook.lookup?,
      h.definitions.find?_eq_some.mpr ⟨hd, hk, rfl⟩]
    rfl
  | true =>
    have hnone : s.definitions.find? d.id = none :=
      DefinitionBook.find?_eq_none.mpr fun hn => h.not_spelled_id hd (h.spelled _ hn)
    rw [node_of_isAnonymous hk, DefinitionBook.lookup?, hnone,
      h.definitions.get?_eq_some.mpr ⟨hd, rfl⟩]
    rfl

theorem Consistent.lookup?_parameter (h : s.Consistent) (hn : name ∈ s.parameters.names) :
    s.definitions.lookup? name = none := by
  have hfind : s.definitions.find? name = none :=
    DefinitionBook.find?_eq_none.mpr (h.disjoint hn)
  rw [DefinitionBook.lookup?, hfind, Option.none_or]
  cases hget : s.definitions.get? name with
  | none => rfl
  | some d =>
    obtain ⟨hd, rfl⟩ := h.definitions.get?_eq_some.mp hget
    exact absurd (h.symbols _ hn) (h.not_spelled_id hd)

/-- Deleting removes what nothing else refers to, and is refused for what something refers to. -/
theorem Consistent.delete_live (h : s.Consistent) (hkey : s.Live key) :
    (¬ s.UsedByOthers key ∧ s.delete key = .ok (true, s.withoutKey key)) ∨
      (s.UsedByOthers key ∧ ∃ users, s.delete key = .error (.usedBy key users)) := by
  rcases hkey with hn | hnode
  · have hself : s.without key = s := h.without_eq_self (h.not_mem_nodes_of_parameter hn)
    rw [withoutKey, hself]
    exact h.delete_parameter hn (h.lookup?_parameter hn)
  · obtain ⟨d, hd, rfl⟩ := List.mem_map.mp hnode
    have hnone : s.parameters.find? d.node = none :=
      ParameterBook.find?_eq_none.mpr fun hn => h.not_mem_nodes_of_parameter hn hnode
    have hparameters : s.parameters.delete d.node = s.parameters := by
      rw [ParameterBook.delete, hnone]
    rw [withoutKey, hparameters]
    exact h.delete_definition (h.lookup?_node hd)

/-- After any actions in which every numeral bound to a name is finite, definitions refer to
parameters and functions only. Deleting a name or a plot removes it just if no other definition
refers to it; otherwise it is refused as in use, and nothing changes. -/
theorem run_closed (r : Reading) (actions : List Action) (hfinite : FiniteNumerals r actions) :
    let s := (empty r).run actions
    (∀ d ∈ s.definitions.entries, ∀ name ∈ d.dependencies ++ d.calls,
      name ∈ s.parameters.names ∨ name ∈ s.definitions.names) ∧
    ∀ key, s.Live key →
      ((∃ t, s.delete key = .ok (true, t) ∧ ¬ t.Live key) ↔ ¬ s.UsedByOthers key) ∧
      (¬ s.UsedByOthers key → s.perform (.delete key) = s.withoutKey key) ∧
      (s.UsedByOthers key → (∃ e, s.delete key = .error e ∧ e.code = "IN_USE") ∧
        s.perform (.delete key) = s) := by
  intro s
  have h : s.Consistent := consistent_run r actions
  refine ⟨closed_run r actions hfinite, fun key hkey => ?_⟩
  rcases h.delete_live hkey with ⟨hfree, hok⟩ | ⟨hused, users, herror⟩
  · have hgone : ¬ (s.withoutKey key).Live key := fun hlive => (h.live_withoutKey.mp hlive).2 rfl
    exact ⟨⟨fun _ => hfree, fun _ => ⟨_, hok, hgone⟩⟩, fun _ => perform_delete_of_ok hok,
      fun hused => absurd hused hfree⟩
  · refine ⟨⟨?_, fun hfree => absurd hused hfree⟩, fun hfree => absurd hused hfree, fun _ =>
      ⟨⟨_, herror, rfl⟩, perform_delete_of_error herror⟩⟩
    rintro ⟨t, hok, -⟩
    rw [herror] at hok
    cases hok

/-- A parameter, and a function that depends on it. -/
def slope : List Action := [.enter (text "b = 2") false, .enter (text "f(x) = b x") false]

theorem run_closed_for_slope : FiniteNumerals {} slope ∧
    ¬ ∃ t, ((empty {}).run slope).delete (text "b") = .ok (true, t) ∧ ¬ t.Live (text "b") := by
  have hfinite : FiniteNumerals {} slope := by
    apply finiteNumerals_of_sides
    intro raw redefine hmem
    rcases List.mem_pair.mp hmem with he | he <;> cases he
    · exact ⟨text "b", text "2", by decide +kernel, by decide +kernel⟩
    · exact ⟨text "f(x)", text "b x", by decide +kernel, by decide +kernel⟩
  have hlive : ((empty {}).run slope).Live (text "b") := Or.inl (by decide +kernel)
  have hused : ((empty {}).run slope).UsedByOthers (text "b") := by
    unfold UsedByOthers
    decide +kernel
  refine ⟨hfinite, fun hdeleted => ?_⟩
  exact ((run_closed {} slope hfinite).2 _ hlive).1.mp hdeleted hused

end Formulary.Sheet
