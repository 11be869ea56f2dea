import Formulary.Proofs.Number.Order
import Formulary.Proofs.Sheet.Effect

/-! # Values stay in their domains

Whatever is done with a sheet, each parameter after it was there before, is new with
the usual value, or was given a number that its domain holds or is widened to. So every
value lies in its domain. It is finite as long as no number that is not takes the place
of what has its name: creating a parameter and setting one refuse such a number,
defining one anew does not.
-/

namespace Formulary

/-- The value lies in the domain, and the slider moves. -/
structure Parameter.Valid (q : Parameter) : Prop where
  above : Double.le q.min q.value = true
  below : Double.le q.value q.max = true
  step : Double.lt Double.zero q.step = true

/-- The parameter set anew, its domain widened to hold the value. -/
def Parameter.reset (q : Parameter) (value : Double) : Parameter :=
  { q with
    value, min := Double.min q.min value, max := Double.max q.max value
    source := Parameter.userSource }

/-- A parameter that was created without being asked for. -/
def Parameter.usual (n : Nat) (name : Name) : Parameter :=
  ParameterBook.entryFor n name Parameter.usualValue { source := Parameter.autoSource }

namespace Parameter.Valid

variable {q o : Parameter} {value : Double}

/-- The domain asked for is widened to hold the value. -/
theorem widened (n : Nat) (name : Name) {o : ParameterOptions} (hmin : o.min.isNan = false)
    (hmax : o.max.isNan = false) (hstep : Double.lt Double.zero o.step = true)
    (hvalue : value.isNan = false) : (ParameterBook.entryFor n name value o).Valid where
  above := Double.min_le_right hmin hvalue
  below := Double.le_max_right hmax hvalue
  step := hstep

theorem entryFor (n : Nat) (name : Name) {source : Text} (hvalue : value.isNan = false) :
    (ParameterBook.entryFor n name value { source }).Valid :=
  widened n name (show Parameter.usualMin.isNan = false by decide)
    (show Parameter.usualMax.isNan = false by decide)
    (show Double.lt Double.zero Parameter.usualStep = true by decide) hvalue

theorem usual (n : Nat) (name : Name) :
    (Parameter.usual n name).Valid := entryFor n name (by decide)

theorem reset (h : o.Valid) (hvalue : value.isNan = false) : (o.reset value).Valid where
  above := Double.min_le_right (Double.not_isNan_of_le h.above).1 hvalue
  below := Double.le_max_right (Double.not_isNan_of_le h.below).2 hvalue
  step := h.step

theorem role (h : o.Valid) (hq : q = { o with role := q.role }) : q.Valid := by
  rw [hq]
  exact ⟨h.above, h.below, h.step⟩

end Parameter.Valid

/-- Each parameter was there before, but for what is drawn over it. -/
def ParameterBook.Kept (b b' : ParameterBook) : Prop :=
  ∀ q ∈ b'.entries, ∃ o ∈ b.entries, q = { o with role := q.role }

namespace ParameterBook

variable {b b' b'' : ParameterBook} {name : Name} {q : Parameter}

theorem kept_of_subset (h : ∀ q ∈ b'.entries, q ∈ b.entries) : b.Kept b' :=
  fun q hq => ⟨q, h q hq, rfl⟩

theorem Kept.trans (h : b.Kept b') (h' : b'.Kept b'') : b.Kept b'' := by
  intro q hq
  obtain ⟨o, ho, hqo⟩ := h' q hq
  obtain ⟨o', ho', hoo⟩ := h o ho
  refine ⟨o', ho', ?_⟩
  rw [hqo, hoo]

theorem Keyed.kept_role (h : b.Keyed) (name : Name) (role : Option Text) :
    b.Kept (b.modify name fun q => { q with role }) := by
  intro q hq
  rw [h.modify_entries (f := fun q => { q with role }) fun _ => rfl] at hq
  obtain ⟨o, ho, rfl⟩ := List.mem_map.mp hq
  refine ⟨o, ho, ?_⟩
  split <;> rfl

theorem mem_autos {names : List Name} (h : q ∈ (b.autos names).entries) :
    q ∈ b.entries ∨ ∃ n name, q = Parameter.usual n name := by
  induction names generalizing b with
  | nil => exact Or.inl h
  | cons name names ih =>
    rcases ih h with hq | hq
    · rcases List.mem_append.mp hq with hq | hq
      · exact Or.inl hq
      · exact Or.inr ⟨b.nextId, name, List.mem_singleton.mp hq⟩
    · exact Or.inr hq

theorem ok_of_update {value : Double} (hk : b.Keyed) (h : b.update name value = .ok b') :
    value.isFinite = true ∧ b' = (b.modify name fun q => { q with value }) ∧
      ∀ o ∈ b.entries, o.name = name → Double.le o.min value = true ∧
        Double.le value o.max = true := by
  obtain ⟨p, hp, hrest⟩ := ok_of_bind h
  have hfind : b.find? name = some p := by
    unfold require at hp
    split at hp
    case h_1 q hq => rw [hq, Except.ok.inj hp]
    case h_2 => cases hp
  split at hrest
  case isTrue => cases hrest
  case isFalse hfinite =>
    split at hrest
    case isFalse => cases hrest
    case isTrue hdomain =>
      refine ⟨by simpa using hfinite, (Except.ok.inj hrest).symm, fun o ho hname => ?_⟩
      have hsame : some o = some p := (hk.find?_eq_some.mpr ⟨ho, hname⟩).symm.trans hfind
      rw [Option.some.inj hsame]
      exact (Bool.and_eq_true _ _).mp hdomain

end ParameterBook

namespace Sheet

variable {s t : Sheet} {raw : Text} {redefine : Bool} {name : Name} {p : Plan} {a : Action}
  {q : Parameter}

/-- Where a parameter comes from that is there after an action. -/
inductive Origin (s : Sheet) (a : Action) (q : Parameter) : Prop
  | kept {o : Parameter} (ho : o ∈ s.parameters.entries) (hq : q = { o with role := q.role })
  | auto {n : Nat} {name : Name} (hq : q = { Parameter.usual n name with role := q.role })
  | created {n : Nat} {name : Name} {value : Double} (hvalue : value.isFinite = true)
      (hq : q = ParameterBook.entryFor n name value {})
  | moved {o : Parameter} {value : Double} (ho : o ∈ s.parameters.entries)
      (hvalue : value.isFinite = true) (habove : Double.le o.min value = true)
      (hbelow : Double.le value o.max = true) (hq : q = { o with value })
  | reset {raw : Text} {p : Plan} {o : Parameter} (ha : a = .enter raw true)
      (hp : s.Plans raw true p) (hkind : p.head.kind = .parameter) (htakes : s.TakesOver p)
      (ho : o ∈ s.parameters.entries ∨ ∃ n name, o = Parameter.usual n name)
      (hq : q = o.reset p.value)

theorem origin_of_kept (h : s.parameters.Kept t.parameters) :
    ∀ q ∈ t.parameters.entries, Origin s a q := by
  intro q hq
  obtain ⟨o, ho, hqo⟩ := h q hq
  exact .kept ho hqo

theorem origin_of_entries (h : t.parameters.entries = s.parameters.entries) :
    ∀ q ∈ t.parameters.entries, Origin s a q :=
  origin_of_kept (ParameterBook.kept_of_subset fun _ hq => h ▸ hq)

theorem origin_of_autos {names : List Name} {role : Option Text} {o : Parameter}
    (ho : o ∈ (s.parameters.autos names).entries) : Origin s a { o with role } := by
  rcases ParameterBook.mem_autos ho with ho | ⟨n, name, rfl⟩
  · exact .kept ho rfl
  · exact .auto rfl

/-! ### Every action -/

theorem parameters_numberSet (h : s.Consistent) (hf : s.Fresh p) :
    (s.numberSet p).parameters.entries = (s.parameters.autos p.missing).entries.map fun o =>
      if o.name = p.head.name then o.reset p.value else o :=
  (h.parameters.autos hf).modify_entries fun _ => rfl

theorem mem_clearedParameters {replaced : Option Name} {o : Parameter}
    (hk : s.parameters.Keyed) (ho : o ∈ (s.clearedParameters p replaced).entries) :
    o ∈ s.parameters.entries := by
  unfold clearedParameters at ho
  split at ho
  · rw [hk.delete_entries] at ho
    exact (List.mem_filter.mp ho).1
  · exact ho

theorem Consistent.origin_of_accepted (h : s.Consistent) (hp : s.Plans raw redefine p)
    (hf : s.Fresh p) (hstore : (s.withAutos p.missing).store p raw
      (s.contextFor raw redefine).replaced = (.ok (), t)) :
    ∀ q ∈ t.parameters.entries, Origin s (.enter raw redefine) q := by
  intro q hq
  by_cases hk : p.head.kind = .parameter
  · rcases h.stored_number hp hf hk hstore with ⟨rfl, htakes, rfl⟩ | ⟨hfinite, -, rfl⟩
    · rw [parameters_numberSet h hf] at hq
      obtain ⟨o, ho, rfl⟩ := List.mem_map.mp hq
      split
      · exact .reset rfl hp hk htakes (ParameterBook.mem_autos ho) rfl
      · exact origin_of_autos ho
    · rcases List.mem_append.mp hq with hq | hq
      · exact origin_of_autos hq
      · exact .created hfinite (List.mem_singleton.mp hq)
  · cases h.stored hp hf hstore with
    | reset hkind => exact absurd hkind hk
    | created hkind => exact absurd hkind hk
    | defined =>
      obtain ⟨hkeyed, -⟩ := h.names_clearedParameters hp hf hk
      change q ∈ (markIndependent _ _ _).entries at hq
      rw [entries_markIndependent hkeyed] at hq
      obtain ⟨o, ho, rfl⟩ := List.mem_map.mp hq
      have hin := mem_clearedParameters (h.parameters.autos hf) ho
      have hdrawn : o.drawnOver (outerAxis (axisFor p) p.head.formals) =
          { o with role := (o.drawnOver (outerAxis (axisFor p) p.head.formals)).role } := by
        unfold Parameter.drawnOver
        split <;> rfl
      rw [hdrawn]
      exact origin_of_autos hin

theorem Consistent.origin_enter (h : s.Consistent) (raw : Text) (redefine : Bool) :
    ∀ q ∈ (s.enter raw redefine).2.parameters.entries, Origin s (.enter raw redefine) q := by
  have hentered := h.entered raw redefine
  cases henter : s.enter raw redefine with
  | mk o t =>
    rw [henter] at hentered
    cases o with
    | refused x =>
      cases hentered with
      | unchanged _ hsame => exact origin_of_entries hsame.parameters
      | lost _ hsame => exact origin_of_entries hsame.parameters
    | accepted a =>
      obtain ⟨p, hp, hf, -, hstore⟩ := h.plan_of_accepted henter
      exact h.origin_of_accepted hp hf hstore

theorem Consistent.origin_setValue (h : s.Consistent) {value : Double}
    (ht : s.setValue name value = .ok t) :
    ∀ q ∈ t.parameters.entries, Origin s (.setValue name value) q := by
  obtain ⟨b, hb, rfl⟩ := ok_of_map ht
  obtain ⟨hfinite, rfl, hdomain⟩ := ParameterBook.ok_of_update h.parameters hb
  intro q hq
  rw [h.parameters.modify_entries (f := fun q => { q with value }) fun _ => rfl] at hq
  obtain ⟨o, ho, rfl⟩ := List.mem_map.mp hq
  split
  case isTrue hname => exact .moved ho hfinite (hdomain o ho hname).1 (hdomain o ho hname).2 rfl
  case isFalse => exact .kept ho rfl

theorem Consistent.kept_delete (h : s.Consistent) {key : Text} {found : Bool}
    (ht : s.delete key = .ok (found, t)) : s.parameters.Kept t.parameters := by
  have hsub : ∀ q ∈ (s.parameters.delete key).entries, q ∈ s.parameters.entries := by
    rw [h.parameters.delete_entries]
    exact fun q hq => (List.mem_filter.mp hq).1
  unfold delete at ht
  dsimp only at ht
  split at ht
  · split at ht
    · obtain ⟨-, rfl⟩ := Prod.mk.inj (Except.ok.inj ht)
      exact ParameterBook.kept_of_subset fun _ hq => hq
    · cases ht
  · split at ht
    · obtain ⟨-, rfl⟩ := Prod.mk.inj (Except.ok.inj ht)
      exact ParameterBook.kept_of_subset fun _ hq => hq
    · split at ht
      · obtain ⟨-, rfl⟩ := Prod.mk.inj (Except.ok.inj ht)
        exact ParameterBook.kept_of_subset hsub
      · cases ht

theorem kept_release (hk : s.parameters.Keyed) (name : Name) :
    s.parameters.Kept (s.release name).parameters := by
  have hself : s.parameters.Kept s.parameters := ParameterBook.kept_of_subset fun _ hq => hq
  unfold release
  split
  · exact hself
  · split
    · exact hself
    · split
      · exact hself
      · exact hk.kept_role name none

theorem Consistent.kept_setVariable (h : s.Consistent) (key : Text) (axis : Name) :
    s.parameters.Kept (s.setVariable key axis).2.parameters := by
  have hself : s.parameters.Kept s.parameters := ParameterBook.kept_of_subset fun _ hq => hq
  unfold setVariable
  split
  · exact hself
  case h_2 d hd =>
    dsimp only
    generalize (if d.formals.isEmpty then s.parameters.contains axis else d.formals.contains axis) =
      allowed
    have hb : ∀ b, (b = if d.formals.isEmpty then s.parameters.modify axis fun p =>
        { p with role := some Parameter.independentRole } else s.parameters) →
        b.Keyed ∧ s.parameters.Kept b := by
      rintro b rfl
      split
      · exact ⟨h.parameters.modify (fun _ => rfl) fun _ => rfl, h.parameters.kept_role axis _⟩
      · exact ⟨h.parameters, hself⟩
    generalize (if d.formals.isEmpty then s.parameters.modify axis fun p =>
        { p with role := some Parameter.independentRole } else s.parameters) = b at hb ⊢
    obtain ⟨hkeyed, hkept⟩ := hb b rfl
    split
    · exact hself
    · split
      · split
        · exact hkept
        · exact hkept.trans (kept_release (s := { s with
            parameters := b
            definitions := s.definitions.replace { d with independent := some axis } }) hkeyed _)
      · exact hkept

/-- Every parameter has an origin, whatever was done. -/
theorem Consistent.origin (h : s.Consistent) (a : Action) :
    ∀ q ∈ (s.perform a).parameters.entries, Origin s a q := by
  cases a with
  | enter raw redefine => exact h.origin_enter raw redefine
  | delete key =>
    cases ht : s.delete key with
    | ok result =>
      obtain ⟨found, t⟩ := result
      rw [perform_delete_of_ok ht]
      exact origin_of_kept (h.kept_delete ht)
    | error e =>
      rw [perform_delete_of_error ht]
      exact origin_of_entries rfl
  | setValue name value =>
    cases ht : s.setValue name value with
    | ok t =>
      rw [show s.perform (.setValue name value) = t by simp only [perform, ht]]
      exact h.origin_setValue ht
    | error e =>
      rw [show s.perform (.setValue name value) = s by simp only [perform, ht]]
      exact origin_of_entries rfl
  | toggle key =>
    refine origin_of_entries ?_
    change (s.toggle key).2.parameters.entries = _
    unfold toggle
    split <;> rfl
  | setVariable key axis => exact origin_of_kept (h.kept_setVariable key axis)
  | evaluate key args => exact origin_of_entries rfl
  | sample key lo hi count => exact origin_of_entries rfl

/-! ### What every action keeps -/

/-- A number that is not finite takes the place of what has its name. -/
def Overflows (s : Sheet) (a : Action) : Prop :=
  ∃ raw p, a = .enter raw true ∧ s.Plans raw true p ∧ p.head.kind = .parameter ∧
    p.value.isFinite = false ∧ s.TakesOver p

/-- Every parameter has a finite value. -/
def Finite (s : Sheet) : Prop := ∀ q ∈ s.parameters.entries, q.value.isFinite = true

/-- The number of a plan is defined, finite or not. -/
theorem Plans.not_isNan_value (hp : s.Plans raw redefine p) (hk : p.head.kind = .parameter) :
    p.value.isNan = false := by
  obtain ⟨-, -, -, -, hnumeral⟩ := hp.planned.numeral hk
  unfold Plan.value
  cases hx : Numeral.double? p.rhs with
  | none => rfl
  | some x => exact Numeral.not_isNan_of_double? hnumeral hx

theorem Origin.valid (h : Origin s a q) (hall : ∀ o ∈ s.parameters.entries, o.Valid) : q.Valid := by
  cases h with
  | kept ho hq => exact (hall _ ho).role hq
  | auto hq => exact (Parameter.Valid.usual _ _).role hq
  | created hvalue hq =>
    exact hq ▸ Parameter.Valid.entryFor _ _ (Double.not_isNan_of_isFinite hvalue)
  | moved ho _ habove hbelow hq => exact hq ▸ ⟨habove, hbelow, (hall _ ho).step⟩
  | reset _ hp hkind _ ho hq =>
    have hvalue := hp.not_isNan_value hkind
    rw [hq]
    rcases ho with ho | ⟨n, name, rfl⟩
    · exact (hall _ ho).reset hvalue
    · exact (Parameter.Valid.usual n name).reset hvalue

theorem Origin.isFinite (h : Origin s a q) (hall : s.Finite) (ha : ¬ s.Overflows a) :
    q.value.isFinite = true := by
  cases h with
  | @kept o ho hq =>
    rw [hq]
    exact hall o ho
  | auto hq =>
    rw [hq]
    exact (by decide : Parameter.usualValue.isFinite = true)
  | created hvalue hq =>
    rw [hq]
    exact hvalue
  | moved _ hvalue _ _ hq =>
    rw [hq]
    exact hvalue
  | reset he hp hkind htakes _ hq =>
    rw [hq]
    by_contra hvalue
    exact ha ⟨_, _, he, hp, hkind, by simpa [Parameter.reset] using hvalue, htakes⟩

/-- A number that takes over is stored, finite or not. -/
theorem Consistent.not_finite_of_overflows (h : s.Consistent) (ha : s.Overflows a) :
    ¬ (s.perform a).Finite := by
  obtain ⟨raw, p, rfl, hp, hk, hvalue, htakes⟩ := ha
  obtain ⟨hf, hstore⟩ := h.store_of_takesOver hp hk htakes
  have hperform : s.perform (.enter raw true) = s.numberSet p := by
    rw [perform, h.enter_of_fresh hp hf, hstore]
  have hname : p.head.name ∈ (s.withAutos p.missing).parameters.names :=
    mem_names_withAutos.mpr (htakes.imp And.left fun hfunction => hfunction.2.2)
  obtain ⟨o, ho, hon⟩ := List.mem_map.mp hname
  intro hall
  have hin : o.reset p.value ∈ (s.perform (.enter raw true)).parameters.entries := by
    rw [hperform, parameters_numberSet h hf]
    exact List.mem_map.mpr ⟨o, ho, if_pos hon⟩
  have hfinite : p.value.isFinite = true := hall _ hin
  rw [hvalue] at hfinite
  cases hfinite

/-- One action keeps all values finite just if it does not let one in that is not. -/
theorem Consistent.finite_perform_iff (h : s.Consistent) (hall : s.Finite) (a : Action) :
    (s.perform a).Finite ↔ ¬ s.Overflows a :=
  ⟨fun hfinite ha => h.not_finite_of_overflows ha hfinite,
    fun ha q hq => (h.origin a q hq).isFinite hall ha⟩

theorem run_concat (actions : List Action) (a : Action) (s : Sheet) :
    s.run (actions ++ [a]) = (s.run actions).perform a := by
  rw [run, run, List.foldl_append]
  rfl

/-- After any actions, every parameter has its value in its domain and a step above zero. The values
are finite unless at some point a number that is not takes the place of what has its name; and
that is the one action that ever makes a value not finite. -/
theorem run_valid (r : Reading) (actions : List Action) :
    let s := (empty r).run actions
    (∀ q ∈ s.parameters.entries, q.Valid) ∧
    ((∀ before a, before ++ [a] <+: actions → ¬ ((empty r).run before).Overflows a) → s.Finite) ∧
    ∀ a, s.Finite → ((s.perform a).Finite ↔ ¬ s.Overflows a) := by
  intro s
  have hvalid : ∀ actions, ∀ q ∈ ((empty r).run actions).parameters.entries, q.Valid := by
    intro actions
    induction actions using List.reverseRecOn with
    | nil => simp [run, empty, ParameterBook.empty]
    | append_singleton actions a ih =>
      rw [run_concat]
      exact fun q hq => ((consistent_run r actions).origin a q hq).valid ih
  have hfinite : (∀ before a, before ++ [a] <+: actions → ¬ ((empty r).run before).Overflows a) →
      ((empty r).run actions).Finite := by
    induction actions using List.reverseRecOn with
    | nil => simp [Finite, run, empty, ParameterBook.empty]
    | append_singleton actions a ih =>
      intro hnone
      rw [run_concat]
      have hbefore := ih fun before a' hearlier =>
        hnone before a' (hearlier.trans (List.prefix_append _ _))
      exact ((consistent_run r actions).finite_perform_iff hbefore a).mpr
        (hnone actions a (List.prefix_refl _))
  exact ⟨hvalid actions, hfinite, fun a hall =>
    (consistent_run r actions).finite_perform_iff hall a⟩

/-- A number too large for a double replaces a parameter's value, and is refused for a new one. -/
theorem redefined_infinite :
    let s := (empty {}).run [.enter (text "k = 5") false]
    (s.enter (text "k = 1e999") true).1.isAccepted = true ∧
      ((s.enter (text "k = 1e999") true).2.parameters.entries.map Parameter.value) =
        [.infinite false] ∧
      (s.enter (text "j = 1e999") true).1.isAccepted = false := by
  decide +kernel

theorem run_valid_for_replaced :
    let s := (empty {}).run [.enter (text "k = 5") false]
    s.Finite ∧ ¬ s.Overflows (.enter (text "k = -30") true) ∧
      (s.perform (.enter (text "k = -30") true)).Finite := by
  intro s
  obtain ⟨-, hfinite, hstep⟩ := run_valid {} [.enter (text "k = 5") false]
  have hall : s.Finite := by
    refine hfinite ?_
    rintro before a ⟨rest, hrest⟩ ⟨raw, p, rfl, -⟩
    cases before <;> simp at hrest
  have hfits : ¬ s.Overflows (.enter (text "k = -30") true) := by
    rintro ⟨raw, p, he, hp, -, hvalue, -⟩
    obtain ⟨rfl, -⟩ := Action.enter.inj he
    have hplan : s.Plans (text "k = -30") true
        ⟨.parameter ⟨'k', none, 0⟩, text "-30", [], [], [], [], none⟩ := by
      unfold Plans
      decide +kernel
    rw [hp.unique hplan] at hvalue
    exact absurd hvalue (by decide +kernel)
  exact ⟨hall, hfits, (hstep _ hall).mpr hfits⟩

end Sheet

end Formulary
