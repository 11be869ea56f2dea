import Formulary.Proofs.Sheet.Accepted
import Formulary.Proofs.Sheet.Structure

/-! # What an accepted text changes

Besides the name that a text defines, every definition stays as it is and where it
is, and so does every parameter, but that the one a new definition is drawn over
may become independent. New are the parameters that were reported as created, the
parameter that was defined, and one definition at most.
-/

namespace Formulary

/-- The names that an accepted text defines: one, or none for a plot. -/
def Accepted.named (a : Accepted) : List Name := if a.kind = .anonymous then [] else [a.name]

/-- The definitions besides the functions of these names. -/
def DefinitionBook.besides (b : DefinitionBook) (names : List Name) : List Definition :=
  b.entries.filter fun d => d.isAnonymous || !names.contains d.name

/-- The parameters besides those of these names. -/
def ParameterBook.besides (b : ParameterBook) (names : List Name) : List Parameter :=
  b.entries.filter fun q => !names.contains q.name

/-- A parameter once something is drawn over the axis. -/
def Parameter.drawnOver (axis : Option Name) (q : Parameter) : Parameter :=
  if axis = some q.name ∧ q.source = Parameter.autoSource then
    { q with role := some Parameter.independentRole }
  else q

theorem DefinitionBook.besides_nil (b : DefinitionBook) : b.besides [] = b.entries :=
  List.filter_eq_self.mpr fun d _ => by simp

/-! ### Parameters besides the names -/

namespace ParameterBook

variable {b : ParameterBook} {names : List Name} {name : Name}

theorem besides_append {b' : ParameterBook} {more : List Parameter}
    (h : b'.entries = b.entries ++ more) : b'.besides names =
      b.besides names ++ more.filter fun q => !names.contains q.name := by
  rw [besides, besides, h, List.filter_append]

/-- Adding a parameter of one of the names changes nothing besides. -/
theorem besides_extend {value : Double} {o : ParameterOptions} (hname : name ∈ names) :
    (b.extend name value o).besides names = b.besides names := by
  rw [besides_append (b := b) rfl, List.filter_eq_nil_iff.mpr, List.append_nil]
  intro q hq
  obtain rfl := List.mem_singleton.mp hq
  simpa [entryFor] using hname

theorem Keyed.besides_delete (h : b.Keyed) (hname : name ∈ names) :
    (b.delete name).besides names = b.besides names := by
  rw [besides, besides, h.delete_entries, List.filter_filter]
  apply List.filter_congr
  intro q _
  by_cases hq : q.name = name
  · simp [hq, hname]
  · simp [hq]

/-- Changing parameters one by one, but for their names, changes those besides in the same way. -/
theorem besides_map {b' : ParameterBook} {f : Parameter → Parameter}
    (h : b'.entries = b.entries.map f) (hname : ∀ q, (f q).name = q.name) :
    b'.besides names = (b.besides names).map f := by
  rw [besides, besides, h, List.filter_map]
  congr 1
  apply List.filter_congr
  intro q _
  rw [Function.comp, hname]

theorem Keyed.besides_modify {f : Parameter → Parameter} (h : b.Keyed) (hid : ∀ q, (f q).id = q.id)
    (hkept : ∀ q, (f q).name = q.name) (hname : name ∈ names) :
    (b.modify name f).besides names = b.besides names := by
  rw [besides_map (h.modify_entries hid) fun q => by split <;> simp [hkept]]
  refine (List.map_congr_left fun q hq => ?_).trans (List.map_id _)
  rw [if_neg, id]
  rintro rfl
  simpa [hname] using (List.mem_filter.mp hq).2

theorem besides_autos (b : ParameterBook) (created names : List Name) :
    ∃ more, (b.autos created).besides names = b.besides names ++ more ∧
      more.map Parameter.name = created.filter fun n => !names.contains n := by
  obtain ⟨more, hentries, rfl, -⟩ := b.autos_entries created
  exact ⟨_, besides_append hentries, by rw [List.filter_map]; rfl⟩

end ParameterBook

theorem Parameter.name_drawnOver (axis : Option Name) (q : Parameter) :
    (q.drawnOver axis).name = q.name := by
  unfold drawnOver
  split <;> rfl

theorem Parameter.drawnOver_none (q : Parameter) : q.drawnOver none = q := by
  rw [drawnOver, if_neg (by simp)]

namespace Sheet

variable {s t : Sheet} {raw : Text} {redefine : Bool} {name : Name} {p : Plan} {a : Accepted}
  {b : ParameterBook}

/-- The axis of a definition, unless it is one of the formals. -/
def outerAxis (axis : Option Name) (formals : List Name) : Option Name :=
  axis.filter fun v => !formals.contains v

theorem entries_markIndependent (hk : b.Keyed) (axis : Option Name) (formals : List Name) :
    (markIndependent b axis formals).entries =
      b.entries.map (Parameter.drawnOver (outerAxis axis formals)) := by
  have hnone : b.entries = b.entries.map (Parameter.drawnOver none) := by
    rw [funext Parameter.drawnOver_none, List.map_id']
  cases axis with
  | none => exact hnone
  | some v =>
    cases hv : formals.contains v with
    | true =>
      simp only [markIndependent, outerAxis, Option.filter, hv, if_true, Bool.not_true,
        Bool.false_eq_true, if_false]
      exact hnone
    | false =>
      simp only [markIndependent, outerAxis, Option.filter, hv, if_false, Bool.not_false,
        Bool.false_eq_true, if_true]
      rw [hk.modify_entries]
      · apply List.map_congr_left
        intro q _
        by_cases hq : q.name = v
        · simp [Parameter.drawnOver, hq]
        · simp [Parameter.drawnOver, hq, Ne.symm hq]
      · intro q
        split <;> rfl

/-! ### Definitions besides the name -/

/-- Leaving out a name is keeping what there is besides it. -/
theorem Linked.besides_name (h : s.Linked) (hn : Spelled name) :
    s.definitions.besides [name] = (s.without name).definitions.entries := by
  apply List.filter_congr
  intro d hd
  cases hk : d.isAnonymous with
  | true =>
    have hne : d.node ≠ name := by
      rintro rfl
      exact absurd (h.node_of_spelled hd hn).1 (by simp [hk])
    simp [hne]
  | false =>
    rw [node_of_not_isAnonymous hk, Bool.eq_iff_iff]
    simp

/-- What stays when a definition is stored is what there is besides its name. -/
theorem Linked.besides_definitionFor (h : s.Linked)
    (hn : p.head.kind ≠ .anonymous → Spelled p.head.name) (warnings : List Text) :
    s.definitions.besides (p.accepted warnings).named =
      (s.without (s.definitionFor p raw).node).definitions.entries := by
  rw [node_definitionFor]
  by_cases hk : p.head.kind = .anonymous
  · have hnamed : (p.accepted warnings).named = [] := if_pos hk
    rw [hnamed, if_pos hk, DefinitionBook.besides_nil, h.without_eq_self h.newId_not_mem_nodes]
  · have hnamed : (p.accepted warnings).named = [p.head.name] := if_neg hk
    rw [hnamed, if_neg hk]
    exact h.besides_name (hn hk)

/-! ### The effect of an accepted text -/

/-- What an accepted text changes: what is not named stays, next to the new definitions and the
parameters that were created. -/
structure Effect (s : Sheet) (a : Accepted) (new : List Definition) (axis : Option Name)
    (t : Sheet) : Prop where
  definitions : t.definitions.entries = s.definitions.besides a.named ++ new
  count : new.length = if a.kind = .parameter then 0 else 1
  described : ∀ d ∈ new, d.id ∉ s.definitions.entries.map Definition.id ∧ d.kind = a.kind ∧
    d.name = a.name ∧ d.formals = a.formals ∧ d.rhs = a.rhs ∧ d.dependencies = a.dependencies
  parameters : ∃ more, t.parameters.besides a.named =
    (s.parameters.besides a.named).map (Parameter.drawnOver axis) ++ more ∧
      more.map Parameter.name = a.created.filter fun n => !a.named.contains n
  axis : ∀ v, axis = some v → ∃ d ∈ new, d.independent = some v ∧ v ∉ d.formals
  names : ∀ n, (n ∈ t.parameters.names ∧ n ∉ s.parameters.names) ↔
    n ∈ a.created ∨ a.kind = .parameter ∧ n = a.name ∧ n ∉ s.parameters.names

/-- New parameters are those created and the one defined. -/
theorem Consistent.names_of_accepted (h : s.Consistent) (hp : s.Plans raw redefine p)
    (hf : s.Fresh p) (ha : s.enter raw redefine = (.accepted a, t)) (n : Name) :
    (n ∈ t.parameters.names ∧ n ∉ s.parameters.names) ↔
      n ∈ p.missing ∨ p.head.kind = .parameter ∧ n = p.head.name ∧ n ∉ s.parameters.names := by
  have hnew : n ∈ p.missing → n ∉ s.parameters.names := fun hm hn =>
    (List.nodup_append.mp hf).2.2 n hn n hm rfl
  have hentered := h.entered raw redefine
  rw [ha] at hentered
  cases hentered with
  | parameter hp' hb =>
    obtain rfl := hp.unique hp'
    rw [hb.names]
    constructor
    · rintro ⟨hn | hn | hn, hno⟩
      · exact absurd hn hno
      · exact Or.inl hn
      · exact Or.inr ⟨hb.kind, hn, hno⟩
    · rintro (hn | ⟨-, hn, hno⟩)
      · exact ⟨Or.inr (Or.inl hn), hnew hn⟩
      · exact ⟨Or.inr (Or.inr hn), hno⟩
  | definition hp' hb =>
    obtain rfl := hp.unique hp'
    rw [hb.names]
    constructor
    · rintro ⟨⟨hn | hn, -⟩, hno⟩
      · exact absurd hn hno
      · exact Or.inl hn
    · rintro (hn | ⟨hk, -⟩)
      · refine ⟨⟨Or.inr hn, fun _ he => ?_⟩, hnew hn⟩
        exact hp.name_not_mem_missing hb.kind (he ▸ hn)
      · exact absurd hk hb.kind

theorem named_accepted (hk : p.head.kind = .parameter) (warnings : List Text) :
    (p.accepted warnings).named = [p.head.name] :=
  if_neg (by simp [Plan.accepted, hk])

/-- A parameter has a new value, or is new; nothing else is but what was created. -/
theorem Consistent.effect_of_parameter (h : s.Consistent) (hp : s.Plans raw redefine p)
    (hf : s.Fresh p) (hk : p.head.kind = .parameter) {warnings : List Text}
    (ha : s.enter raw redefine = (.accepted (p.accepted warnings), t))
    (hd : t.definitions.entries = (s.without p.head.name).definitions.entries)
    (hparameters : t.parameters.besides [p.head.name] =
      (s.parameters.autos p.missing).besides [p.head.name]) :
    Effect s (p.accepted warnings) [] none t where
  definitions := by
    rw [named_accepted hk, h.besides_name (hp.planned.spelled (by simp [hk])), List.append_nil, hd]
  count := (if_pos hk).symm
  described d hd := absurd hd List.not_mem_nil
  parameters := by
    obtain ⟨more, hmore, hcreated⟩ := s.parameters.besides_autos p.missing [p.head.name]
    rw [named_accepted hk, funext Parameter.drawnOver_none, List.map_id']
    exact ⟨more, hparameters.trans hmore, hcreated⟩
  axis v hv := by cases hv
  names := h.names_of_accepted hp hf ha

/-- The parameters besides the name of a new definition are as they were, but for the axis. -/
theorem Consistent.besides_clearedParameters (h : s.Consistent) (hp : s.Plans raw redefine p)
    (hf : s.Fresh p) (hk : p.head.kind ≠ .parameter) (warnings : List Text) :
    ((s.withAutos p.missing).clearedParameters p (s.contextFor raw redefine).replaced).besides
      (p.accepted warnings).named =
        (s.parameters.autos p.missing).besides (p.accepted warnings).named := by
  unfold clearedParameters
  split
  case isFalse => rfl
  case isTrue hc =>
    have hnamed : (p.accepted warnings).named = [p.head.name] :=
      if_neg (h.kind_of_cleared hp hk hc)
    exact (h.parameters.autos hf).besides_delete (by simp [hnamed])

/-- The text of an accepted definition changes what it says. -/
theorem Consistent.effect_of_definition (h : s.Consistent) (hp : s.Plans raw redefine p)
    (hf : s.Fresh p) (hk : p.head.kind ≠ .parameter) {warnings : List Text}
    (ha : s.enter raw redefine = (.accepted (p.accepted warnings), t))
    (ht : t = (s.withAutos p.missing).define (s.definitionFor p raw)
        (markIndependent ((s.withAutos p.missing).clearedParameters p
          (s.contextFor raw redefine).replaced) (axisFor p) p.head.formals)) :
    Effect s (p.accepted warnings) [s.definitionFor p raw]
      (outerAxis (axisFor p) p.head.formals) t where
  definitions := by
    rw [h.besides_definitionFor (hp.planned.spelled), ht]
    rfl
  count := (if_neg hk).symm
  described d hd := by
    obtain rfl := List.mem_singleton.mp hd
    exact ⟨h.definitions.fresh _, rfl, rfl, rfl, rfl, rfl⟩
  parameters := by
    obtain ⟨more, hmore, hcreated⟩ :=
      s.parameters.besides_autos p.missing (p.accepted warnings).named
    have hkeyed := (h.names_clearedParameters hp hf hk).1
    refine ⟨more.map (Parameter.drawnOver (outerAxis (axisFor p) p.head.formals)), ?_, ?_⟩
    · rw [ht]
      show (markIndependent _ _ _).besides _ = _
      rw [ParameterBook.besides_map (entries_markIndependent hkeyed _ _)
        (Parameter.name_drawnOver _), h.besides_clearedParameters hp hf hk, hmore, List.map_append]
    · rw [List.map_map]
      exact (List.map_congr_left fun q _ => Parameter.name_drawnOver _ q).trans hcreated
  axis v hv := by
    obtain ⟨hv, hformals⟩ := Option.filter_eq_some_iff.mp hv
    have hnot : v ∉ p.head.formals := by simpa using hformals
    exact ⟨_, List.mem_singleton_self _, hv, hnot⟩
  names := h.names_of_accepted hp hf ha

/-- An accepted text changes nothing but what it names, what was created for it and what a new
definition is drawn over. -/
theorem enter_effect (r : Reading) (actions : List Action) (raw : Text) (redefine : Bool)
    (a : Accepted) (ha : (((empty r).run actions).enter raw redefine).1 = .accepted a) :
    ∃ new axis, Effect ((empty r).run actions) a new axis
      (((empty r).run actions).enter raw redefine).2 := by
  have h := consistent_run r actions
  generalize (empty r).run actions = s at *
  obtain ⟨t, ht⟩ : ∃ t, s.enter raw redefine = (.accepted a, t) := ⟨_, Prod.ext ha rfl⟩
  rw [ht]
  obtain ⟨p, hp, hf, rfl, hstore⟩ := h.plan_of_accepted ht
  cases h.stored hp hf hstore with
  | reset hk =>
    refine ⟨[], none, h.effect_of_parameter hp hf hk ht rfl ?_⟩
    exact (h.parameters.autos hf).besides_modify (fun _ => rfl) (fun _ => rfl) List.mem_cons_self
  | created hk hnew =>
    refine ⟨[], none, h.effect_of_parameter hp hf hk ht rfl ?_⟩
    exact ParameterBook.besides_extend List.mem_cons_self
  | defined hk => exact ⟨_, _, h.effect_of_definition hp hf hk ht rfl⟩

/-- What is reported of a parameter that becomes a function. -/
def promoted : Accepted where
  kind := .function
  name := text "k"
  rhs := text "a*t"
  formals := [text "t"]
  dependencies := [text "a"]
  created := [text "a"]
  transition := some .promote
  warnings := []

theorem enter_effect_for_promotion :
    let s := (empty {}).run [.enter (text "k = 2") false]
    (s.enter (text "k(t) = a t") false).1 = .accepted promoted ∧
      ∃ new axis, Effect s promoted new axis (s.enter (text "k(t) = a t") false).2 := by
  intro s
  have ha : (s.enter (text "k(t) = a t") false).1 = .accepted promoted := by decide +kernel
  exact ⟨ha, enter_effect {} [.enter (text "k = 2") false] (text "k(t) = a t") false promoted ha⟩

end Sheet

end Formulary
