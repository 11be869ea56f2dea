import Formulary.Proofs.Sheet.Entered

/-! # What an accepted text becomes

Entering a text stores its plan next to the parameters created for it. What storing
can refuse is known by its code, and an accepted text leaves one of three sheets
behind: a parameter set anew, a new parameter, or a definition at the end.
-/

namespace Formulary.Sheet

variable {s t u : Sheet} {raw : Text} {redefine : Bool} {replaced : Option Name} {name : Name}
  {p : Plan} {a : Accepted}

/-- What cannot be bound is refused. -/
theorem Consistent.enter_of_not_fresh (h : s.Consistent)
    (hf : ∀ p, s.Plans raw redefine p → ¬ s.Fresh p) :
    ∃ e t, s.enter raw redefine = (.ofError e, t) := by
  obtain ⟨e, hbound, -⟩ := h.bound_of_not_fresh hf
  exact ⟨e, _, by rw [enter_eq, hbound]⟩

/-- An accepted text has a plan, and the plan was stored. -/
theorem Consistent.plan_of_accepted (h : s.Consistent)
    (ha : s.enter raw redefine = (.accepted a, t)) :
    ∃ p, s.Plans raw redefine p ∧ s.Fresh p ∧ a = p.accepted (t.ambiguities p.rhs) ∧
      (s.withAutos p.missing).store p raw (s.contextFor raw redefine).replaced = (.ok (), t) := by
  by_cases hf : ∃ p, s.Plans raw redefine p ∧ s.Fresh p
  · obtain ⟨p, hp, hf⟩ := hf
    refine ⟨p, hp, hf, ?_⟩
    rw [h.enter_of_fresh hp hf] at ha
    split at ha
    · cases ha
    case h_2 hstore =>
      obtain ⟨hout, rfl⟩ := Prod.mk.inj ha
      exact ⟨(Outcome.accepted.inj hout).symm, hstore⟩
  · obtain ⟨e, t', he⟩ := h.enter_of_not_fresh fun p hp hfresh => hf ⟨p, hp, hfresh⟩
    rw [he] at ha
    cases ha

/-! ### What storing refuses -/

/-- The codes of what is refused when a plan is stored. -/
def storingCodes : List String :=
  ["CIRCULAR_DEPENDENCY", "IN_USE", "WRONG_ARGUMENT_COUNT", "INVALID_VALUE", "DUPLICATE_PARAMETER"]

theorem code_of_removeFunction {checkCallers : Bool} {e : SheetError}
    (h : t.removeFunction name checkCallers = .error e) : e.code ∈ storingCodes := by
  unfold removeFunction at h
  split at h
  · cases h
  · dsimp only at h
    split at h
    · obtain rfl := Except.error.inj h
      simp [SheetError.code, storingCodes]
    · cases h

theorem code_of_checkUsers {arity : Nat} {e : SheetError}
    (h : t.checkUsers name arity = .error e) : e.code ∈ storingCodes := by
  unfold checkUsers at h
  dsimp only at h
  split at h
  all_goals
    split at h
    · cases h
    · obtain rfl := Except.error.inj h
      simp [SheetError.code, storingCodes]

theorem code_of_createParameter (hk : t.parameters.Keyed) {value : Double} {e : SheetError}
    (h : t.createParameter name value = (.error e, u)) : e.code ∈ storingCodes := by
  rw [createParameter_eq hk] at h
  split at h
  · obtain rfl := Except.error.inj (congrArg Prod.fst h)
    simp [SheetError.code, storingCodes]
  · split at h
    · cases congrArg Prod.fst h
    · obtain rfl := Except.error.inj (congrArg Prod.fst h)
      simp [SheetError.code, storingCodes]

theorem parameters_of_removeFunction {checkCallers : Bool}
    (h : t.removeFunction name checkCallers = .ok u) : u.parameters = t.parameters := by
  unfold removeFunction at h
  split at h
  · rw [Except.ok.inj h]
  · dsimp only at h
    split at h
    · cases h
    · obtain rfl := Except.ok.inj h
      rfl

theorem code_of_storeParameter (hk : t.parameters.Keyed) {e : SheetError}
    (h : t.storeParameter p replaced = (.error e, u)) : e.code ∈ storingCodes := by
  rw [storeParameter_eq] at h
  split at h
  case h_1 hremove =>
    obtain rfl := Except.error.inj (congrArg Prod.fst h)
    exact code_of_removeFunction hremove
  case h_2 v hremove =>
    split at h
    · cases congrArg Prod.fst h
    · exact code_of_createParameter (parameters_of_removeFunction hremove ▸ hk) h

theorem Linked.code_of_storeDefinition (h : t.Linked) (hnew : TakesNode t p replaced)
    {e : SheetError} (he : t.storeDefinition p raw replaced = (.error e, u)) :
    e.code ∈ storingCodes := by
  rw [h.storeDefinition_of_takesNode hnew] at he
  split at he
  · obtain rfl := Except.error.inj (congrArg Prod.fst he)
    simp [SheetError.code, storingCodes]
  · split at he
    case h_1 hcheck =>
      obtain rfl := Except.error.inj (congrArg Prod.fst he)
      split at hcheck
      · cases hcheck
      · exact code_of_checkUsers hcheck
    case h_2 => cases congrArg Prod.fst he

/-- A plan that is not stored is refused for a cycle, for what uses its name, or for its value. -/
theorem Consistent.code_of_store (h : s.Consistent) (hp : s.Plans raw redefine p) (hf : s.Fresh p)
    {e : SheetError} (he : (s.withAutos p.missing).store p raw
      (s.contextFor raw redefine).replaced = (.error e, t)) : e.code ∈ storingCodes := by
  unfold store at he
  split at he
  · exact code_of_storeParameter (h.parameters.autos hf) he
  case isFalse hk =>
    exact (h.toLinked.withAutos p.missing).code_of_storeDefinition (h.takesNode hp hk) he

/-! ### What storing leaves behind -/

/-- A number takes the place of a parameter, or of a function that no other definition calls and
whose name the number itself misses. -/
def TakesOver (s : Sheet) (p : Plan) : Prop :=
  p.head.name ∈ s.parameters.names ∧ p.head.name ∉ p.missing ∨
    p.head.name ∈ s.definitions.names ∧ ¬ s.CalledByOthers p.head.name ∧ p.head.name ∈ p.missing

/-- The sheet after a parameter is set to the number of the plan. -/
def numberSet (s : Sheet) (p : Plan) : Sheet :=
  ((s.withAutos p.missing).without p.head.name).resetParameter p.head.name p.value

/-- The sheet after a parameter is created with the number of the plan. -/
def numberCreated (s : Sheet) (p : Plan) : Sheet :=
  { (s.withAutos p.missing).without p.head.name with
    parameters := (s.parameters.autos p.missing).extend p.head.name p.value {} }

/-- A number that is stored takes over on request, or it is finite and its name is new. -/
theorem Consistent.stored_number (h : s.Consistent) (hp : s.Plans raw redefine p) (hf : s.Fresh p)
    (hk : p.head.kind = .parameter)
    (hstore : (s.withAutos p.missing).store p raw (s.contextFor raw redefine).replaced =
      (.ok (), t)) :
    (redefine = true ∧ s.TakesOver p ∧ t = s.numberSet p) ∨
      (p.value.isFinite = true ∧ p.head.name ∉ (s.withAutos p.missing).parameters.names ∧
        t = s.numberCreated p) := by
  have hl := h.toLinked.withAutos p.missing
  rw [store, if_pos hk] at hstore
  by_cases hcalled : p.head.name ∈ s.definitions.names ∧ s.CalledByOthers p.head.name
  · obtain ⟨e, he⟩ := hl.storeParameter_of_called p (s.contextFor raw redefine).replaced
      hcalled.1 hcalled.2
    rw [he] at hstore
    cases congrArg Prod.fst hstore
  · have hfree : p.head.name ∈ s.definitions.names → ¬ s.CalledByOthers p.head.name :=
      fun hname hcall => hcalled ⟨hname, hcall⟩
    rw [hl.storeParameter_of_free (h.parameters.autos hf)
      (hp.planned.spelled (by simp [hk])) hfree] at hstore
    split at hstore
    case isTrue hin =>
      split at hstore
      case isTrue hsome =>
        obtain ⟨n, hr⟩ := Option.isSome_iff_exists.mp hsome
        obtain ⟨hredefine, -, rfl, hlive⟩ := h.replaced_eq_some hp hr
        have hnodup := List.nodup_append.mp hf
        refine Or.inl ⟨hredefine, ?_, (Prod.mk.inj hstore).2.symm⟩
        rcases mem_names_withAutos.mp hin with hname | hmissing
        · exact Or.inl ⟨hname, fun hm => hnodup.2.2 _ hname _ hm rfl⟩
        · have hfunction := hlive.resolve_left fun hname => hnodup.2.2 _ hname _ hmissing rfl
          exact Or.inr ⟨hfunction, hfree hfunction, hmissing⟩
      case isFalse => cases congrArg Prod.fst hstore
    case isFalse hin =>
      split at hstore
      case isTrue hfinite => exact Or.inr ⟨hfinite, hin, (Prod.mk.inj hstore).2.symm⟩
      case isFalse => cases congrArg Prod.fst hstore

/-- A number that takes over on request is stored, whatever it is. -/
theorem Consistent.store_of_takesOver (h : s.Consistent) (hp : s.Plans raw true p)
    (hk : p.head.kind = .parameter) (htakes : s.TakesOver p) : s.Fresh p ∧
      (s.withAutos p.missing).store p raw (s.contextFor raw true).replaced =
        (.ok (), s.numberSet p) := by
  have hf : s.Fresh p := by
    refine h.fresh hp fun hm => ?_
    rcases htakes with ⟨-, hno⟩ | ⟨hname, -, -⟩
    · exact absurd hm hno
    · exact fun hin => h.disjoint hin hname
  have hfree : p.head.name ∈ s.definitions.names → ¬ s.CalledByOthers p.head.name := by
    intro hname
    rcases htakes with ⟨hin, -⟩ | ⟨-, hfree, -⟩
    · exact absurd hname (h.disjoint hin)
    · exact hfree
  have hin : p.head.name ∈ (s.withAutos p.missing).parameters.names :=
    mem_names_withAutos.mpr (htakes.imp And.left fun hfunction => hfunction.2.2)
  have hreplaced : (s.contextFor raw true).replaced.isSome = true := by
    rcases h.change_cases hp (by simp [hk]) with
      ⟨hr, -⟩ | ⟨hr, ⟨hno, hno', -⟩ | ⟨hname, -, -⟩ | ⟨-, hk', -⟩⟩
    · rw [hr, Option.isSome_some]
    · rcases htakes with ⟨hname, -⟩ | ⟨hname, -⟩
      · exact absurd hname hno
      · exact absurd hname hno'
    · rcases htakes with ⟨hin, -⟩ | ⟨-, -, hm⟩
      · exact absurd hname (h.disjoint hin)
      · exact absurd hname (h.not_mem_of_missing hp hm (by simp [hr])).2
    · simp [hk] at hk'
  refine ⟨hf, ?_⟩
  have hl := h.toLinked.withAutos p.missing
  rw [store, if_pos hk, hl.storeParameter_of_free (h.parameters.autos hf)
    (hp.planned.spelled (by simp [hk])) hfree, if_pos hin, if_pos hreplaced]
  rfl

/-- The sheets that a stored plan may leave behind. -/
inductive Stored (s : Sheet) (raw : Text) (redefine : Bool) (p : Plan) : Sheet → Prop
  | reset (hkind : p.head.kind = .parameter) :
      Stored s raw redefine p
        (((s.withAutos p.missing).without p.head.name).resetParameter p.head.name p.value)
  | created (hkind : p.head.kind = .parameter)
      (hnew : p.head.name ∉ (s.withAutos p.missing).parameters.names) :
      Stored s raw redefine p { (s.withAutos p.missing).without p.head.name with
        parameters := (s.parameters.autos p.missing).extend p.head.name p.value {} }
  | defined (hkind : p.head.kind ≠ .parameter) :
      Stored s raw redefine p ((s.withAutos p.missing).define (s.definitionFor p raw)
        (markIndependent ((s.withAutos p.missing).clearedParameters p
          (s.contextFor raw redefine).replaced) (axisFor p) p.head.formals))

theorem Consistent.stored (h : s.Consistent) (hp : s.Plans raw redefine p) (hf : s.Fresh p)
    (hstore : (s.withAutos p.missing).store p raw (s.contextFor raw redefine).replaced =
      (.ok (), t)) : Stored s raw redefine p t := by
  have hl := h.toLinked.withAutos p.missing
  by_cases hk : p.head.kind = .parameter
  · rcases h.stored_number hp hf hk hstore with ⟨-, -, rfl⟩ | ⟨-, hnew, rfl⟩
    · exact .reset hk
    · exact .created hk hnew
  · rw [store, if_neg hk] at hstore
    rcases hl.storeDefinition_cases (h.takesNode hp hk) raw with ⟨e, he⟩ | ⟨-, -, hok⟩
    · rw [he] at hstore
      cases congrArg Prod.fst hstore
    · rw [hok] at hstore
      obtain ⟨-, rfl⟩ := Prod.mk.inj hstore
      exact .defined hk

end Formulary.Sheet
