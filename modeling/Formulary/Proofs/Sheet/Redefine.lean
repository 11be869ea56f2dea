import Formulary.Proofs.Binding.Beside
import Formulary.Proofs.Sheet.Preview

/-! # Defining a live name anew

The name that a text replaces is found by planning the text where nothing is in use.
Only a reserved name or a reference to itself can stand in the way of a text that was
read. So a function cannot be replaced by a definition that refers to it: its name then
counts as taken. Any other text is bound as if the name that it replaces were free.
-/

namespace Formulary

variable {r : Reading} {live : LiveNames} {arities : Formula.Arities} {raw : Text} {head : Head}
  {right : Text} {name : Name} {e : BindError} {p : Plan}

theorem Formula.calls_nil (lex : Lexicon) (t : Text) : Formula.calls lex [] t = [] := by
  rw [← List.map_eq_nil_iff (f := Formula.Call.name), Formula.map_name_calls,
    List.eq_nil_iff_forall_not_mem]
  intro name hname
  cases Formula.mem_of_mem_userCalls hname

namespace LiveNames

theorem contains_of_kind? {kind : NameKind} (h : live.kind? name = some kind) :
    live.contains name = true := by
  obtain ⟨row, hfind, -⟩ := Option.bind_eq_some_iff.mp h
  rw [contains, List.any_eq_true]
  have hname : (row.1 == name) = true :=
    List.find?_some (p := fun row : Name × Option NameKind => row.1 == name) hfind
  exact ⟨row, List.mem_of_find?_eq_some hfind, hname⟩

theorem contains_erase_self : (live.erase name).contains name = false := by
  simp [contains, erase]

theorem contains_erase {n : Name} (hn : n ≠ name) :
    (live.erase name).contains n = live.contains n := by
  rw [contains, contains, erase, List.any_filter]
  congr 1
  funext row
  by_cases hrow : row.1 = n
  · simp [hrow, hn]
  · simp [hrow]

/-- Only a function's row matters to which functions there are. -/
theorem functions_erase (h : (name, some NameKind.function) ∉ live) :
    (live.erase name).functions = live.functions := by
  rw [functions, erase, List.filter_filter]
  refine congrArg (List.map _) (List.filter_congr fun row hmem => ?_)
  by_cases hfunction : row.2 = some .function
  · have hne : row.1 ≠ name := fun he => h (by rw [← he, ← hfunction]; exact hmem)
    simp [hfunction, hne]
  · simp [hfunction]

end LiveNames

namespace Plan

/-- The text defines the name, whatever is in use. -/
def Defines (r : Reading) (raw : Text) (name : Name) : Prop :=
  ∃ head right, read r raw = .ok (head, right) ∧ head.kind ≠ .anonymous ∧ head.name = name

theorem plan_of_read (h : read r raw = .ok (head, right)) :
    plan r live arities raw = assemble r live arities head right := by
  rw [plan_eq_read, h]
  rfl

/-! ### What stands in the way of a plan -/

theorem change_of_not_contains (h : live.contains head.name = false) :
    change r live head = .ok none := by
  rw [change, if_pos (by simp [h])]

theorem code_of_checkReserved (h : checkReserved r head = .error e) : e.code = "RESERVED_NAME" := by
  unfold checkReserved at h
  split at h
  case h_1 e' he =>
    obtain rfl := Except.error.inj h
    obtain ⟨name, -, hname⟩ := List.exists_of_findSome?_eq_some he
    unfold Naming.reservation? at hname
    split at hname
    · obtain rfl := Option.some.inj hname
      rfl
    · cases hname
  case h_2 => cases h

theorem error_of_checkCalls {calls : List Formula.Call} (h : checkCalls head calls = .error e) :
    ∃ faults, e = .wrongArguments faults := by
  unfold checkCalls at h
  split at h
  · cases h
  · exact ⟨_, (Except.error.inj h).symm⟩

theorem error_of_checkSelf {functions dependencies : List Name} {rhs : Text}
    (h : checkSelf r functions head rhs dependencies = .error e) :
    head.kind ≠ .parameter ∧ e = .selfReference head.name := by
  unfold checkSelf at h
  split at h
  case isTrue hself =>
    refine ⟨fun hk => ?_, (Except.error.inj h).symm⟩
    simp [hk] at hself
  case isFalse => cases h

/-- The checks of a plan, in order, of which the first that fails is reported. -/
theorem error_of_assemble (h : assemble r live arities head right = .error e) :
    checkReserved r head = .error e ∨ checkReserved r head = .ok () ∧
      (change r live head = .error e ∨ (∃ faults, e = .wrongArguments faults) ∨
        head.kind ≠ .parameter ∧ e = .selfReference head.name) := by
  rcases error_of_bind h with h | ⟨_, hreserved, h⟩
  · exact Or.inl h
  refine Or.inr ⟨hreserved, ?_⟩
  rcases error_of_bind h with h | ⟨transition, -, h⟩
  · exact Or.inl h
  rcases error_of_bind h with h | ⟨-, -, h⟩
  · exact Or.inr (Or.inl (error_of_checkCalls h))
  rcases error_of_bind h with h | ⟨-, -, h⟩
  · exact Or.inr (Or.inr (error_of_checkSelf h))
  · cases h

theorem assemble_of_reserved (h : checkReserved r head = .error e) :
    assemble r live arities head right = .error e := by
  unfold assemble
  rw [h]
  rfl

theorem assemble_of_change (hreserved : checkReserved r head = .ok ())
    (h : change r live head = .error e) : assemble r live arities head right = .error e := by
  unfold assemble
  rw [hreserved]
  change (change r live head >>= _) = _
  rw [h]
  rfl

/-- Where nothing is in use, only a reserved name or a reference to itself stands in the way. -/
theorem error_of_assemble_nil (h : assemble r [] [] head right = .error e) :
    checkReserved r head = .error e ∨ checkReserved r head = .ok () ∧ head.kind ≠ .parameter ∧
      e = .selfReference head.name := by
  rcases error_of_bind h with h | ⟨_, hreserved, h⟩
  · exact Or.inl h
  refine Or.inr ⟨hreserved, ?_⟩
  rw [change_of_not_contains rfl] at h
  change (checkCalls head (Formula.calls r.lexicon [] _) >>= _) = _ at h
  rw [Formula.calls_nil] at h
  rcases error_of_bind h with h | ⟨-, -, h⟩
  · cases h
  rcases error_of_bind h with h | ⟨-, -, h⟩
  · exact error_of_checkSelf h
  · cases h

/-- A name is taken if it is live, unless a parameter becomes a function. -/
theorem error_of_change (h : change r live head = .error e) :
    e.code = "NAME_COLLISION" ∧ head.kind ≠ .anonymous ∧ live.contains head.name = true ∧
      (live.kind? head.name = some .parameter → head.kind ≠ .function) := by
  unfold change at h
  split at h
  case isTrue => cases h
  case isFalse hlive =>
    rw [Bool.or_eq_true, decide_eq_true_eq, not_or, Bool.not_eq_true', Bool.not_eq_false] at hlive
    split at h
    case h_1 => cases h
    case h_2 => cases h
    case h_3 hno _ =>
      obtain rfl := Except.error.inj h
      exact ⟨rfl, hlive.1, hlive.2, fun hk hkind => hno hk hkind⟩

theorem change_of_function (hkind : head.kind = .function)
    (hlive : live.kind? head.name = some .function) :
    ∃ e, change r live head = .error e ∧ e.code = "NAME_COLLISION" := by
  have hcontains := LiveNames.contains_of_kind? hlive
  rw [change, if_neg (by simp [hkind, hcontains])]
  simp only [hlive, hkind]
  exact ⟨_, rfl, rfl⟩

theorem change_of_parameter (hkind : head.kind = .function)
    (hlive : live.kind? head.name = some .parameter) :
    change r live head = .ok (some .promote) := by
  have hcontains := LiveNames.contains_of_kind? hlive
  rw [change, if_neg (by simp [hkind, hcontains])]
  simp only [hlive, hkind]

/-- A parameter does not matter to the definition of a function that takes its name. -/
theorem assemble_erase (hkind : head.kind = .function)
    (hlive : live.kind? head.name = some .parameter)
    (hrow : (head.name, some NameKind.function) ∉ live) :
    assemble r live arities head right =
      (assemble r (live.erase head.name) arities head right).map fun p =>
        { p with transition := some .promote } := by
  have hfunctions : functionNames (live.erase head.name) arities head =
      functionNames live arities head := by
    rw [functionNames, functionNames, LiveNames.functions_erase hrow]
  unfold assemble
  rw [change_of_parameter hkind hlive, change_of_not_contains LiveNames.contains_erase_self,
    hfunctions]
  cases checkReserved r head with
  | error e => rfl
  | ok _ =>
    change (checkCalls _ _ >>= _) = Except.map _ (checkCalls _ _ >>= _)
    cases checkCalls head _ with
    | error e => rfl
    | ok _ =>
      change (checkSelf _ _ _ _ _ >>= _) = Except.map _ (checkSelf _ _ _ _ _ >>= _)
      cases hself : checkSelf r _ head _ _ with
      | error e => rfl
      | ok _ =>
        -- the definition does not refer to itself, so its name is not looked up
        have hnot := (checkSelf_eq_ok.mp hself (by simp [hkind])).1
        have hlookup : ∀ n, n ∈ Formula.freeSymbols r.lexicon r.complex head.formals
            (functionNames live arities head)
            (finalRhs r (functionNames live arities head) head right) →
            (live.erase head.name).contains n = live.contains n :=
          fun n hn => LiveNames.contains_erase fun he => hnot (he ▸ hn)
        have hmissing := List.filter_congr fun n hn => congrArg not (hlookup n hn)
        have hexisting := List.filter_congr hlookup
        exact congrArg Except.ok (by rw [hmissing, hexisting])

end Plan

/-- What is not bound although there is a plan lacks a name that could not be created. -/
theorem Binding.code_of_ofPlan {σ ι : Type} {provider : Provider σ ι} {s s' : σ}
    (h : ofPlan (some provider) live p s = (.error e, s')) : e.code = "UNRESOLVED_DEPENDENCY" := by
  have hask : ∀ (names : List Name) (resolved : List (Name × ι)) (s : σ),
      Fails (fun e => e.code == "UNRESOLVED_DEPENDENCY") (askAll provider resolved names s).1 := by
    intro names
    induction names with
    | nil => exact fun _ _ => Fails.ok
    | cons name names ih =>
      intro resolved s
      rw [askAll]
      split
      · exact ih _ _
      · exact Fails.error rfl
      · exact Fails.error rfl
  simp only [ofPlan] at h
  split at h
  case h_1 =>
    have hfinish := congrArg Prod.fst h
    unfold finish at hfinish
    dsimp only at hfinish
    split at hfinish
    · cases hfinish
    · obtain rfl := Except.error.inj hfinish
      rfl
  case h_2 e' _ hasked =>
    obtain rfl := Except.error.inj (congrArg Prod.fst h)
    exact beq_iff_eq.mp (hask p.missing [] s e' (by rw [hasked]))

/-- The code of a refusal. -/
def Outcome.code? : Outcome → Option String
  | .accepted _ => none
  | .refused x => some x.code

namespace Sheet

variable {s : Sheet} {redefine : Bool}

/-- The names of parameters and functions. -/
def HasName (s : Sheet) (name : Name) : Prop :=
  name ∈ s.parameters.names ∨ name ∈ s.definitions.names

/-- The text defines a function anew in terms of itself, as far as can be told where no function
is known. -/
def DefinedByItself (s : Sheet) (raw : Text) : Prop :=
  ∃ name ∈ s.definitions.names, Plan.Defines s.reading raw name ∧
    plan s.reading [] [] raw = .error (.selfReference name)

/-- What a text is planned against when a name is taken out. -/
def planWithout (s : Sheet) (name : Name) (raw : Text) : Except BindError Plan :=
  plan s.reading (s.liveNames.erase name) (s.definitions.arities.filter fun a => a.1 != name) raw

/-! ### The replaced name -/

theorem redefined?_of_ok (h : Plan.read s.reading raw = .ok (head, right))
    (hkind : head.kind ≠ .anonymous) (hlive : s.liveNames.contains head.name = true)
    (htrial : plan s.reading [] [] raw = .ok p) :
    (s.contextFor raw true).replaced = some head.name := by
  have hhead : p.head = head := by
    rw [Plan.plan_of_read h] at htrial
    exact (Plan.of_assemble htrial).1
  rw [contextFor, if_pos rfl, redefined?, htrial]
  dsimp only
  rw [hhead, if_neg (by simp [hkind, hlive])]

theorem replaced_of_error (htrial : plan s.reading [] [] raw = .error e) :
    s.contextFor raw true = ⟨none, s.liveNames, s.definitions.arities⟩ := by
  have hnone : s.redefined? s.liveNames raw = none := by rw [redefined?, htrial]
  rw [← contextFor_false s raw]
  simp only [contextFor, hnone, if_true, Bool.false_eq_true, if_false]

theorem contextFor_replaced (h : (s.contextFor raw redefine).replaced = some name) :
    s.contextFor raw redefine = ⟨some name, s.liveNames.erase name,
      s.definitions.arities.filter fun a => a.1 != name⟩ := by
  have h' : (if redefine then s.redefined? s.liveNames raw else none) = some name := h
  have hrow : (fun a : Name × Nat => some a.1 != some name) = fun a => a.1 != name := by
    funext a
    rw [Bool.eq_iff_iff]
    simp
  simp only [contextFor, h', Option.map_some, Option.getD_some, hrow]

/-- A name that is replaced is taken out before the text is planned. -/
theorem plan_of_replaced (h : (s.contextFor raw redefine).replaced = some name) :
    plan s.reading (s.contextFor raw redefine).live (s.contextFor raw redefine).arities raw =
      s.planWithout name raw := by
  rw [contextFor_replaced h]
  rfl

/-- A text that defines no live name is entered as if nothing were to be replaced. -/
theorem Consistent.enter_of_not_live (h : s.Consistent)
    (hnone : ∀ name, Plan.Defines s.reading raw name → ¬ s.HasName name) :
    s.enter raw true = s.enter raw false := by
  have hcontext : s.contextFor raw true = s.contextFor raw false := by
    have hreplaced : s.redefined? s.liveNames raw = none := by
      unfold redefined?
      split
      · rfl
      case h_2 p hp =>
        obtain ⟨head, right, hread, ha⟩ := Plan.plan_eq_ok.mp hp
        rw [if_pos]
        rw [ha.sameHead, Bool.or_eq_true, decide_eq_true_eq, Bool.not_eq_true', Bool.eq_false_iff,
          ne_eq, h.contains_liveNames]
        by_cases hk : head.kind = .anonymous
        · exact Or.inl hk
        · exact Or.inr (hnone _ ⟨head, right, hread, hk, rfl⟩)
    simp only [contextFor, hreplaced, if_true, Bool.false_eq_true, if_false]
  rw [enter, enter, hcontext]

/-! ### Refusals -/

theorem enter_of_plan_error (h : plan s.reading (s.contextFor raw redefine).live
      (s.contextFor raw redefine).arities raw = .error e) :
    s.enter raw redefine = (.ofError e, s) := by
  rw [enter_eq, bound, bind, h]
  simp only [createdBefore_of_plan h]
  rfl

/-- What may become of a plan: it is accepted, up to whether a parameter gave way, or refused
when it is stored, or it is a number that lacks the very name that it defines. -/
inductive Ends (p : Plan) : Outcome → Prop
  | accepted {a : Accepted} (ha : { a with warnings := [], transition := none } =
      { p.accepted [] with transition := none }) : Ends p (.accepted a)
  | notStored {x : Refusal} (hcode : x.code ∈ storingCodes) : Ends p (.refused x)
  | lacking {x : Refusal} (hcode : x.code = "UNRESOLVED_DEPENDENCY")
      (hkind : p.head.kind = .parameter) (hname : p.head.name ∈ p.missing) : Ends p (.refused x)

theorem Consistent.ends_of_plans (h : s.Consistent) (hp : s.Plans raw redefine p) :
    Ends p (s.enter raw redefine).1 := by
  by_cases hf : s.Fresh p
  · rw [h.enter_of_fresh hp hf]
    rcases hstore : (s.withAutos p.missing).store p raw (s.contextFor raw redefine).replaced with
      ⟨e | u, t⟩
    · exact .notStored (h.code_of_store hp hf hstore)
    · exact .accepted rfl
  · have hname : p.head.name ∈ p.missing := by
      by_contra hno
      exact hf (h.fresh hp fun hm => absurd hm hno)
    have hkind : p.head.kind = .parameter := by
      by_contra hk
      exact hp.name_not_mem_missing hk hname
    obtain ⟨e, hbound, -⟩ := h.bound_of_not_fresh fun q hq hfresh => hf (hp.unique hq ▸ hfresh)
    have hplan : plan s.reading (s.contextFor raw redefine).live
        (s.contextFor raw redefine).arities raw = .ok p := hp
    have hcode : e.code = "UNRESOLVED_DEPENDENCY" := by
      rw [bound, bind, hplan] at hbound
      exact Binding.code_of_ofPlan hbound
    rw [enter_eq, hbound]
    exact .lacking hcode hkind hname

theorem Ends.promoted {o : Outcome} {transition : Option Transition}
    (h : Ends { p with transition } o) : Ends p o := by
  cases h with
  | accepted ha => exact .accepted ha
  | notStored hcode => exact .notStored hcode
  | lacking hcode hkind hname => exact .lacking hcode hkind hname

theorem Ends.code_ne {o : Outcome} (h : Ends p o) : o.code? ≠ some "NAME_COLLISION" := by
  intro hcode
  cases h with
  | accepted => cases hcode
  | notStored hstoring =>
    rw [Option.some.inj hcode] at hstoring
    exact absurd hstoring (by decide)
  | lacking hunresolved =>
    rw [Option.some.inj hcode] at hunresolved
    exact absurd hunresolved (by decide)

/-! ### Taken names -/

theorem Consistent.kind?_liveNames (h : s.Consistent) (hlive : s.HasName name) :
    name ∈ s.parameters.names ∧ s.liveNames.kind? name = some .parameter ∨
      name ∈ s.definitions.names ∧ s.liveNames.kind? name = some .function := by
  have hcontains : s.liveNames.contains name = true := h.contains_liveNames.mpr hlive
  obtain ⟨⟨n, kind⟩, hfind⟩ := Option.isSome_iff_exists.mp
    (List.find?_isSome.mpr (List.any_eq_true.mp hcontains))
  obtain rfl : n = name := by simpa using List.find?_some hfind
  have hkind : s.liveNames.kind? n = kind := by rw [LiveNames.kind?, hfind]; rfl
  rw [hkind]
  exact h.mem_liveNames.mp (List.mem_of_find?_eq_some hfind)

/-- The trial run of a text that was read fails for a reserved name or for a reference to itself. -/
theorem trial_cases (hread : Plan.read s.reading raw = .ok (head, right))
    (htrial : plan s.reading [] [] raw = .error e) :
    Plan.checkReserved s.reading head = .error e ∨
      Plan.checkReserved s.reading head = .ok () ∧ head.kind ≠ .parameter ∧
        e = .selfReference head.name := by
  rw [Plan.plan_of_read hread] at htrial
  exact Plan.error_of_assemble_nil htrial

theorem kind_of_ne (hanonymous : head.kind ≠ .anonymous) (hparameter : head.kind ≠ .parameter) :
    head.kind = .function := by
  cases head with
  | parameter => exact absurd rfl hparameter
  | function => rfl
  | anonymous => exact absurd rfl hanonymous

theorem Consistent.definedByItself_of_taken (h : s.Consistent)
    (hread : Plan.read s.reading raw = .ok (head, right))
    (hreserved : Plan.checkReserved s.reading head = .ok ())
    (hchange : Plan.change s.reading (s.contextFor raw true).live head = .error e) :
    s.DefinedByItself raw := by
  obtain ⟨-, hanonymous, hcontains, hpromote⟩ := Plan.error_of_change hchange
  obtain ⟨hlive, hkept⟩ := h.live_contains.mp hcontains
  cases htrial : plan s.reading [] [] raw with
  | ok p =>
    have hreplaced := redefined?_of_ok hread hanonymous (h.contains_liveNames.mpr hlive) htrial
    exact absurd hreplaced.symm hkept
  | error e' =>
    rcases trial_cases hread htrial with he' | ⟨-, hparameter, rfl⟩
    · rw [hreserved] at he'
      cases he'
    · have hcontext := replaced_of_error htrial
      rw [hcontext] at hpromote
      rcases h.kind?_liveNames hlive with ⟨-, hkind⟩ | ⟨hin, -⟩
      · exact absurd (kind_of_ne hanonymous hparameter) (hpromote hkind)
      · exact ⟨head.name, hin, ⟨head, right, hread, hanonymous, rfl⟩, htrial⟩

theorem code_ne_of_isReading (h : e.isReading = true) : e.code ≠ "NAME_COLLISION" := by
  cases e with
  | taken => cases h
  | unbalanced =>
    rw [BindError.code]
    split <;> decide
  | _ => simp [BindError.code]

/-- A name counts as taken just if it is a function's and the text defines it by itself. -/
theorem Consistent.taken_iff (h : s.Consistent) :
    (s.enter raw true).1.code? = some "NAME_COLLISION" ↔ s.DefinedByItself raw := by
  constructor
  · intro hcode
    cases hplan : plan s.reading (s.contextFor raw true).live (s.contextFor raw true).arities
      raw with
    | ok p =>
      exact absurd hcode (h.ends_of_plans hplan).code_ne
    | error e =>
      rw [enter_of_plan_error hplan] at hcode
      have hcode' : e.code = "NAME_COLLISION" := Option.some.inj hcode
      rw [Plan.plan_eq_read] at hplan
      rcases error_of_bind hplan with hread | ⟨⟨head, right⟩, hread, hassemble⟩
      · exact absurd hcode' (code_ne_of_isReading (Plan.fails_read e hread))
      · rcases Plan.error_of_assemble hassemble with
          hreserved | ⟨hreserved, hchange | ⟨faults, rfl⟩ | ⟨-, rfl⟩⟩
        · rw [Plan.code_of_checkReserved hreserved] at hcode'
          exact absurd hcode' (by decide)
        · exact h.definedByItself_of_taken hread hreserved hchange
        · exact absurd hcode' (by simp [BindError.code])
        · exact absurd hcode' (by simp [BindError.code])
  · rintro ⟨_, hin, ⟨head, right, hread, hanonymous, rfl⟩, htrial⟩
    rcases trial_cases hread htrial with hreserved | ⟨hreserved, hparameter, -⟩
    · exact absurd (Plan.code_of_checkReserved hreserved) (by simp [BindError.code])
    · have hcontext := replaced_of_error htrial
      have hkind : s.liveNames.kind? head.name = some .function := by
        rcases h.kind?_liveNames (Or.inr hin) with ⟨hin', -⟩ | ⟨-, hkind⟩
        · exact absurd hin (h.disjoint hin')
        · exact hkind
      obtain ⟨e, hchange, hcode⟩ :=
        Plan.change_of_function (r := s.reading) (kind_of_ne hanonymous hparameter) hkind
      have hplan : plan s.reading (s.contextFor raw true).live (s.contextFor raw true).arities
          raw = .error e := by
        rw [hcontext, Plan.plan_of_read hread]
        exact Plan.assemble_of_change hreserved hchange
      rw [enter_of_plan_error hplan]
      exact congrArg some hcode

/-! ### Names defined anew -/

/-- A parameter is planned to become a function as if its name were free. -/
theorem Consistent.plan_promote (h : s.Consistent)
    (hread : Plan.read s.reading raw = .ok (head, right)) (hkind : head.kind = .function)
    (hin : head.name ∈ s.parameters.names)
    (hlive : s.liveNames.kind? head.name = some .parameter) :
    plan s.reading s.liveNames s.definitions.arities raw =
      (s.planWithout head.name raw).map fun p => { p with transition := some .promote } := by
  have hnot : head.name ∉ s.definitions.names := h.disjoint hin
  have harities : s.definitions.arities.filter (fun a => a.1 != head.name) =
      s.definitions.arities := by
    refine List.filter_eq_self.mpr fun a ha => bne_iff_ne.mpr fun he => hnot ?_
    rw [← h.definitions.names_arities, ← he]
    exact List.mem_map_of_mem ha
  have hrow : (head.name, some NameKind.function) ∉ s.liveNames := by
    simp [h.mem_liveNames, hnot]
  rw [planWithout, harities, Plan.plan_of_read hread, Plan.plan_of_read hread]
  exact Plan.assemble_erase hkind hlive hrow

/-- A text that defines a live name anew is refused as its plan without that name, with the sheet
as it was, or ends as that plan may end. -/
theorem Consistent.enter_of_live (h : s.Consistent) (hdefines : Plan.Defines s.reading raw name)
    (hlive : s.HasName name) (hother : ¬ s.DefinedByItself raw) :
    match s.planWithout name raw with
    | .error e => s.enter raw true = (.ofError e, s)
    | .ok p => Ends p (s.enter raw true).1 := by
  obtain ⟨head, right, hread, hanonymous, rfl⟩ := hdefines
  cases htrial : plan s.reading [] [] raw with
  | ok q =>
    have hreplaced := redefined?_of_ok hread hanonymous (h.contains_liveNames.mpr hlive) htrial
    rw [← plan_of_replaced hreplaced]
    split
    case h_1 e hplan => exact enter_of_plan_error hplan
    case h_2 p hplan => exact h.ends_of_plans hplan
  | error e =>
    have hcontext := replaced_of_error htrial
    rcases trial_cases hread htrial with hreserved | ⟨-, hparameter, rfl⟩
    · have hplan : plan s.reading (s.contextFor raw true).live (s.contextFor raw true).arities
          raw = .error e := by
        rw [Plan.plan_of_read hread]
        exact Plan.assemble_of_reserved hreserved
      have hwithout : s.planWithout head.name raw = .error e := by
        rw [planWithout, Plan.plan_of_read hread]
        exact Plan.assemble_of_reserved hreserved
      rw [hwithout]
      exact enter_of_plan_error hplan
    · rcases h.kind?_liveNames hlive with ⟨hin, hkind⟩ | ⟨hin, -⟩
      · have hplan : plan s.reading (s.contextFor raw true).live (s.contextFor raw true).arities
            raw = (s.planWithout head.name raw).map fun p =>
              { p with transition := some .promote } := by
          rw [hcontext]
          exact h.plan_promote hread (kind_of_ne hanonymous hparameter) hin hkind
        cases hwithout : s.planWithout head.name raw with
        | error e =>
          rw [hwithout] at hplan
          exact enter_of_plan_error hplan
        | ok p =>
          rw [hwithout] at hplan
          exact (h.ends_of_plans hplan).promoted
      · exact absurd ⟨head.name, hin, ⟨head, right, hread, hanonymous, rfl⟩, htrial⟩ hother

/-- Defining names anew on any sheet that can be reached. A name counts as taken just if it is a
function's and the text, read where nothing is in use, refers to it itself. Any other text that
defines a live name is refused as its plan without that name, or ends as that plan may end. A text
that defines no live name is entered as if nothing were to be replaced. -/
theorem enter_redefine (r : Reading) (actions : List Action) (raw : Text) :
    let s := (empty r).run actions
    ((s.enter raw true).1.code? = some "NAME_COLLISION" ↔ s.DefinedByItself raw) ∧
    (¬ s.DefinedByItself raw → ∀ name, Plan.Defines r raw name → s.HasName name →
      match s.planWithout name raw with
      | .error e => s.enter raw true = (.ofError e, s)
      | .ok p => Ends p (s.enter raw true).1) ∧
    ((∀ name, Plan.Defines r raw name → ¬ s.HasName name) →
      s.enter raw true = s.enter raw false) := by
  intro s
  have h : s.Consistent := consistent_run r actions
  have hr : s.reading = r := reading_run r actions
  rw [← hr]
  exact ⟨h.taken_iff, fun hother name hdefines hlive => h.enter_of_live hdefines hlive hother,
    h.enter_of_not_live⟩

/-- A function that is defined anew by itself is not replaced: its name counts as taken, though
without it the text refers to itself. -/
theorem redefined_by_itself :
    let s := (empty {}).run [.enter (text "f(x) = x") false]
    (s.enter (text "f(x) = f(x) + 1") true).1.code? = some "NAME_COLLISION" ∧
      s.planWithout ['f'] (text "f(x) = f(x) + 1") = .error (.selfReference ['f']) := by
  decide +kernel

theorem enter_redefine_for_identity :
    let s := (empty {}).run [.enter (text "f(x) = x") false]
    ¬ s.DefinedByItself (text "f(x) = 2x") ∧ Plan.Defines {} (text "f(x) = 2x") ['f'] ∧
      s.HasName ['f'] ∧ ∃ p, s.planWithout ['f'] (text "f(x) = 2x") = .ok p ∧
        Ends p (s.enter (text "f(x) = 2x") true).1 := by
  intro s
  have hfree : (s.enter (text "f(x) = 2x") true).1.code? ≠ some "NAME_COLLISION" := by
    decide +kernel
  obtain ⟨htaken, hredefine, -⟩ :=
    enter_redefine {} [.enter (text "f(x) = x") false] (text "f(x) = 2x")
  have hother : ¬ s.DefinedByItself (text "f(x) = 2x") := fun hself => hfree (htaken.mpr hself)
  have hread : Plan.read {} (text "f(x) = 2x") =
      .ok (.function ⟨'f', none, 0⟩ [['x']], text "2x") := by decide +kernel
  have hdefines : Plan.Defines {} (text "f(x) = 2x") ['f'] := ⟨_, _, hread, by decide, rfl⟩
  have hlive : s.HasName ['f'] := Or.inr (by decide +kernel)
  have hplan : (s.planWithout ['f'] (text "f(x) = 2x")).toOption.isSome = true := by decide +kernel
  have hends := hredefine hother ['f'] hdefines hlive
  cases hp : s.planWithout ['f'] (text "f(x) = 2x") with
  | error e =>
    rw [hp] at hplan
    cases hplan
  | ok p =>
    rw [hp] at hends
    exact ⟨hother, hdefines, hlive, p, rfl, hends⟩

end Sheet

end Formulary
