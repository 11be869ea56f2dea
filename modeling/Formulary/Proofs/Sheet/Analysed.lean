import Formulary.Proofs.Binding.Sides
import Formulary.Proofs.Formula.Analysis
import Formulary.Proofs.Sheet.Structure

/-! # What is recorded stays true

What a definition is recorded to depend on and to call is what its formula says of
the sheet as it is now. Other definitions matter to it only by the functions it
calls, and those neither go away nor change their number of arguments.
-/

namespace Formulary

variable {r : Reading} {arities arities' : Formula.Arities} {d : Definition} {name : Name}

/-- What is recorded of a definition is what is read off its formula with these functions. -/
structure Analysed (r : Reading) (arities : Formula.Arities) (d : Definition) : Prop where
  writtenOut : Formula.WrittenOut r.lexicon arities.names d.rhs
  dependencies :
    Formula.freeSymbols r.lexicon r.complex d.formals arities.names d.rhs = d.dependencies
  calls : Text.dedup (Formula.userCalls r.lexicon arities.names d.rhs) = d.calls
  fits : ∀ c ∈ Formula.calls r.lexicon arities d.rhs, c.expected = some c.given

namespace Analysed

theorem mem_calls (h : Analysed r arities d) :
    name ∈ d.calls ↔ name ∈ Formula.userCalls r.lexicon arities.names d.rhs := by
  rw [← h.calls, Text.mem_dedup]

theorem mem_names (h : Analysed r arities d) (hname : name ∈ d.calls) : name ∈ arities.names :=
  Formula.mem_of_mem_userCalls (h.mem_calls.mp hname)

/-- Only the functions that are called matter. -/
theorem congr (h : Analysed r arities d)
    (harity : ∀ name ∈ d.calls, arities'.get? name = arities.get? name) :
    Analysed r arities' d := by
  have hnames : ∀ name ∈ Formula.userCalls r.lexicon arities.names d.rhs,
      name ∈ arities'.names := by
    intro name hname
    rw [← Formula.Arities.isSome_get?, harity name (h.mem_calls.mpr hname),
      Formula.Arities.isSome_get?]
    exact Formula.mem_of_mem_userCalls hname
  obtain ⟨htokens, hwritten⟩ := h.writtenOut.of_userCalls hnames
  have hcalls := Formula.calls_congr htokens fun name hname =>
    harity name (h.mem_calls.mpr hname)
  refine ⟨hwritten, ?_, ?_, ?_⟩
  · rw [Formula.freeSymbols_congr htokens, h.dependencies]
  · rw [Formula.userCalls_congr htokens, h.calls]
  · rw [hcalls]
    exact h.fits

/-- How a definition is shown does not matter. -/
theorem of_core {d' : Definition} (h : Analysed r arities d) (hc : d.core = d'.core) :
    Analysed r arities d' := by
  have hcore : Analysed r arities d.core := ⟨h.writtenOut, h.dependencies, h.calls, h.fits⟩
  rw [hc] at hcore
  exact ⟨hcore.writtenOut, hcore.dependencies, hcore.calls, hcore.fits⟩

end Analysed

namespace Sheet

variable {s t : Sheet} {raw : Text} {redefine : Bool} {p : Plan} {a : Action}

/-- What is recorded of the definitions is what the sheet as it is says of them. -/
def Current (s : Sheet) : Prop :=
  ∀ d ∈ s.definitions.entries, Analysed s.reading s.definitions.arities d

/-- Every function that the definition calls is in both sheets, with the same arity. -/
def KeepsCalled (s t : Sheet) (d : Definition) : Prop :=
  ∀ f ∈ s.definitions.entries, f.isAnonymous = false → f.name ∈ d.calls →
    ∃ f' ∈ t.definitions.entries, f'.isAnonymous = false ∧ f'.name = f.name ∧ f'.arity = f.arity

theorem analysed_of_keepsCalled (hs : s.definitions.Keyed) (ht : t.definitions.Keyed)
    (hr : t.reading = s.reading) (hd : Analysed s.reading s.definitions.arities d)
    (hkept : KeepsCalled s t d) : Analysed t.reading t.definitions.arities d := by
  rw [hr]
  apply hd.congr
  intro name hname
  have hmem := hd.mem_names hname
  rw [hs.names_arities] at hmem
  obtain ⟨f, hf, hk, rfl⟩ := DefinitionBook.mem_names.mp hmem
  obtain ⟨f', hf', hk', hn, ha⟩ := hkept f hf hk hname
  rw [hs.arity_of_mem hf hk, ← ha, ← hn, ht.arity_of_mem hf' hk']

/-! ### Steps without a new definition -/

theorem Current.alike (h : s.Consistent) (hc : s.Current) (ha : Alike s t) : t.Current := by
  intro d hd
  obtain ⟨d', hd', hcore⟩ := DefinitionBook.exists_core_of_mem ha.cores hd
  refine (analysed_of_keepsCalled h.definitions (h.alike ha).definitions ha.reading (hc d' hd')
    fun f hf hk _ => ?_).of_core hcore
  obtain ⟨f', hf', hcore'⟩ := DefinitionBook.exists_core_of_mem ha.cores.symm hf
  refine ⟨f', hf', ?_, ?_, ?_⟩
  · exact (congrArg Definition.isAnonymous hcore').trans hk
  · exact (congrArg Definition.name hcore' :)
  · exact (congrArg Definition.arity hcore' :)

/-- A function that no other definition calls can be left out. -/
theorem Current.without {node : Text} (h : s.Consistent) (hc : s.Current)
    (hfree : node ∈ s.definitions.names → ¬ s.CalledByOthers node) :
    (s.without node).Current := by
  intro d hd
  obtain ⟨hold, hne⟩ := mem_without.mp hd
  refine analysed_of_keepsCalled (t := s.without node) h.definitions (h.without node).definitions
    rfl (hc d hold) fun f hf hk hcall => ⟨f, mem_without.mpr ⟨hf, ?_⟩, hk, rfl, rfl⟩
  rintro rfl
  rw [node_of_not_isAnonymous hk] at hne hfree
  exact hfree (DefinitionBook.mem_names.mpr ⟨f, hf, hk, rfl⟩) ⟨d, hold, hne, hcall⟩

theorem not_calledByOthers_of_not_used {node : Text} (h : ¬ s.UsedByOthers node) :
    ¬ s.CalledByOthers node := by
  rintro ⟨o, ho, hne, hcall⟩
  exact h ⟨o, ho, hne, List.mem_append_right _ hcall⟩

/-! ### A new definition -/

theorem Consistent.mem_functionNames (h : s.Consistent) :
    name ∈ Plan.functionNames (s.contextFor raw redefine).live (s.contextFor raw redefine).arities
      p.head ↔ name ∈ (s.contextFor raw redefine).arities.names ∨
        p.head.kind = .function ∧ name = p.head.name :=
  Plan.mem_functionNames fun _ hn => h.mem_arities.mpr (h.mem_functions.mp hn)

/-- A new definition calls functions that stay, not itself. -/
theorem Consistent.mem_of_userCalls (h : s.Consistent) (hp : s.Plans raw redefine p)
    (hk : p.head.kind ≠ .parameter) :
    ∀ name ∈ Formula.userCalls s.reading.lexicon (Plan.functionNames
      (s.contextFor raw redefine).live (s.contextFor raw redefine).arities p.head) p.rhs,
      name ≠ p.head.name ∧ name ∈ (s.contextFor raw redefine).arities.names := by
  intro name hn
  have hself := (hp.planned.notSelf hk).2
  have hne : name ≠ p.head.name := fun he => hself (he ▸ (Formula.mem_userCalls.mp hn).1)
  have hmem := h.mem_functionNames.mp (Formula.mem_of_mem_userCalls hn)
  exact ⟨hne, hmem.resolve_right fun hname => hne hname.2⟩

/-- What is recorded of a new definition is what the sheet says before it is stored, and the
definition does not call itself. -/
theorem Consistent.analysed_definitionFor (h : s.Consistent) (hp : s.Plans raw redefine p)
    (hk : p.head.kind ≠ .parameter) :
    Analysed s.reading s.definitions.arities (s.definitionFor p raw) ∧
      p.head.name ∉ (s.definitionFor p raw).calls := by
  obtain ⟨right, hright⟩ := hp.planned.rhs hk
  have hother := h.mem_of_userCalls hp hk
  have hdependencies := hp.planned.dependencies
  generalize Plan.functionNames (s.contextFor raw redefine).live
    (s.contextFor raw redefine).arities p.head = functions at *
  have hwritten : Formula.WrittenOut s.reading.lexicon functions p.rhs :=
    hright ▸ Formula.writtenOut_withProducts s.reading.lexicon functions right
  -- The tokens are the same for the functions in sight, those in the context and those stored.
  obtain ⟨hcontext, -⟩ := hwritten.of_userCalls fun n hn => (hother n hn).2
  have hin : ∀ n ∈ Formula.userCalls s.reading.lexicon functions p.rhs,
      n ∈ s.definitions.arities.names := by
    intro n hn
    rw [h.definitions.names_arities]
    exact (h.mem_arities.mp (hother n hn).2).1
  obtain ⟨hstored, hwritten'⟩ := hwritten.of_userCalls hin
  have hcalls : Formula.calls s.reading.lexicon s.definitions.arities p.rhs = p.calls := by
    rw [hp.planned.calls]
    apply Formula.calls_congr (hstored.trans hcontext.symm)
    intro n hn
    exact (get?_arities (h.mem_arities.mp (Formula.mem_of_mem_userCalls hn)).2).symm
  have hnames : (Formula.calls s.reading.lexicon s.definitions.arities p.rhs).map
      Formula.Call.name = Formula.userCalls s.reading.lexicon functions p.rhs := by
    rw [Formula.map_name_calls, Formula.userCalls_congr hstored]
  have hrecorded : (s.definitionFor p raw).calls =
      Text.dedup (Formula.userCalls s.reading.lexicon functions p.rhs) :=
    congrArg Text.dedup hnames
  refine ⟨⟨hwritten', ?_, ?_, ?_⟩, ?_⟩
  · exact (Formula.freeSymbols_congr hstored _ _).trans hdependencies.symm
  · rw [hrecorded, ← Formula.userCalls_congr hstored]
    rfl
  · intro c hc
    refine hp.planned.fits c (hcalls ▸ hc) (hother c.name ?_).1
    rw [← hnames]
    exact List.mem_map_of_mem hc
  · rw [hrecorded, Text.mem_dedup]
    exact fun hmem => (hother _ hmem).1 rfl

/-- A function keeps its arity while other definitions refer to it. -/
theorem Consistent.arity_of_checkUsers (h : s.Consistent) {names : List Name} {n : Nat}
    {f : Definition} (hf : f ∈ s.definitions.entries) (hk : f.isAnonymous = false)
    (hused : s.UsedByOthers f.name)
    (hcheck : (s.withAutos names).checkUsers f.name n = .ok ()) : n = f.arity := by
  have hfind : (s.withAutos names).definitions.find? f.name = some f :=
    h.definitions.find?_eq_some.mpr ⟨hf, hk, rfl⟩
  obtain ⟨o, ho, hne, href⟩ := hused
  have huser : o.node ∈ (s.graph.users f.name).filter (· ≠ f.name) := by
    rw [List.mem_filter]
    exact ⟨h.mem_users.mpr ⟨o, ho, href, rfl⟩, by simpa using hne⟩
  unfold checkUsers at hcheck
  rw [hfind] at hcheck
  dsimp only at hcheck
  split at hcheck
  case isFalse => simp at hcheck
  case isTrue hfits =>
    rcases (Bool.or_eq_true _ _).mp hfits with harity | hnobody
    · simpa using harity
    · rw [List.isEmpty_iff] at hnobody
      have hmem : o.node ∈ Text.sort ((s.graph.users f.name).filter (· ≠ f.name)) :=
        List.mem_mergeSort.mpr huser
      exact absurd (hnobody ▸ hmem) List.not_mem_nil

theorem Consistent.name_eq_head (h : s.Consistent) {f : Definition}
    (hf : f ∈ s.definitions.entries) (hk : f.isAnonymous = false)
    (hnode : f.node = (s.definitionFor p raw).node) :
    p.head.kind ≠ .anonymous ∧ f.name = p.head.name := by
  rw [node_of_not_isAnonymous hk] at hnode
  have hname : f.name ∈ s.definitions.names := DefinitionBook.mem_names.mpr ⟨f, hf, hk, rfl⟩
  exact eq_head_of_node (h.spelled _ hname) hnode

theorem Current.bindsDefinition (h : s.Consistent) (hc : s.Current) (hp : s.Plans raw redefine p)
    (hb : s.BindsDefinition raw p t) : t.Current := by
  have ht := h.bindsDefinition hp hb
  obtain ⟨hnew, hself⟩ := h.analysed_definitionFor hp hb.kind
  intro d hd
  rcases (mem_entries_of_bindsDefinition hb).mp hd with ⟨hold, hne⟩ | rfl
  · refine analysed_of_keepsCalled h.definitions ht.definitions hb.reading (hc d hold)
      fun f hf hk hcall => ?_
    by_cases hnode : f.node = (s.definitionFor p raw).node
    · obtain ⟨hanonymous, hname⟩ := h.name_eq_head hf hk hnode
      have hused : s.UsedByOthers f.name :=
        ⟨d, hold, by rwa [← node_of_not_isAnonymous hk, hnode], List.mem_append_right _ hcall⟩
      have hcheck := hb.users hanonymous
      rw [← hname] at hcheck
      refine ⟨s.definitionFor p raw, (mem_entries_of_bindsDefinition hb).mpr (Or.inr rfl), ?_,
        hname.symm, h.arity_of_checkUsers hf hk hused hcheck⟩
      simp [isAnonymous_definitionFor, hanonymous]
    · exact ⟨f, (mem_entries_of_bindsDefinition hb).mpr (Or.inl ⟨hf, hnode⟩), hk, rfl, rfl⟩
  · refine analysed_of_keepsCalled h.definitions ht.definitions hb.reading hnew
      fun f hf hk hcall => ?_
    have hnode : f.node ≠ (s.definitionFor p raw).node := by
      intro hnode
      exact hself ((h.name_eq_head hf hk hnode).2 ▸ hcall)
    exact ⟨f, (mem_entries_of_bindsDefinition hb).mpr (Or.inl ⟨hf, hnode⟩), hk, rfl, rfl⟩

/-! ### Every reachable sheet -/

theorem Current.of_definitions {s t : Sheet} (hc : s.Current) (hr : t.reading = s.reading)
    (hd : t.definitions = s.definitions) : t.Current := by
  rw [Current, hd, hr]
  exact hc

/-- One step keeps what is recorded true. -/
theorem Current.of_step (h : s.Consistent) (hc : s.Current) (hs : Step s a t) : t.Current := by
  cases hs with
  | alike ha => exact hc.alike h ha
  | definitionDropped hd hfree =>
    exact hc.without h fun _ => not_calledByOthers_of_not_used hfree
  | parameterDropped => exact hc
  | functionLost hl hsame =>
    exact (hc.without h fun _ => hl.free).alike (h.without _) (hsame.alike h.parameters)
  | parameterBound hp hb => exact (hc.without h hb.free).of_definitions hb.reading hb.definitions
  | definitionBound hp hb => exact hc.bindsDefinition h hp hb

theorem current_run (r : Reading) (actions : List Action) : ((empty r).run actions).Current :=
  ((consistent_empty r).run_induction (P := Current) (fun _ hd => absurd hd List.not_mem_nil)
    fun _ _ _ _ h hs hc => hc.of_step h hs).2

/-- After any actions, what is recorded of a definition is what is read off its formula with the
functions there are: its dependencies and the names it calls. Every call has as many arguments as
the function takes, and no product is left to be written out. -/
theorem run_analysed (r : Reading) (actions : List Action) (d : Definition)
    (hd : d ∈ ((empty r).run actions).definitions.entries) :
    let b := ((empty r).run actions).definitions
    Formula.freeSymbols r.lexicon r.complex d.formals b.names d.rhs = d.dependencies ∧
    Text.dedup ((Formula.calls r.lexicon b.arities d.rhs).map Formula.Call.name) = d.calls ∧
    (∀ c ∈ Formula.calls r.lexicon b.arities d.rhs, c.expected = some c.given ∧
      ∃ f, b.find? c.name = some f ∧ f.arity = c.given) ∧
    Formula.withProducts r.lexicon b.names d.rhs = d.rhs := by
  intro b
  have hb : b.Keyed := (consistent_run r actions).definitions
  have h := current_run r actions d hd
  rw [reading_run] at h
  rw [← hb.names_arities]
  refine ⟨h.dependencies, ?_, fun c hc => ⟨h.fits c hc, ?_⟩, h.writtenOut.withProducts⟩
  · rw [Formula.map_name_calls]
    exact h.calls
  · have hexpected := (Formula.expected_of_mem_calls hc).symm.trans (h.fits c hc)
    have hname : c.name ∈ b.names := by
      rw [← hb.names_arities, ← Formula.Arities.isSome_get?, hexpected]
      rfl
    obtain ⟨f, hf, hk, hfname⟩ := DefinitionBook.mem_names.mp hname
    refine ⟨f, hb.find?_eq_some.mpr ⟨hf, hk, hfname⟩, ?_⟩
    rw [← hfname, hb.arity_of_mem hf hk] at hexpected
    exact Option.some.inj hexpected

/-- A function, and one that calls it. -/
def calling : List Action :=
  [.enter (text "f(x) = x") false, .enter (text "g(t) = a f(t)") false]

/-- The calling function as it is stored. -/
def caller : Definition where
  id := text "func-2"
  name := text "g"
  kind := .function
  formals := [text "t"]
  rhs := text "a*f(t)"
  source := text "g(t) = a f(t)"
  dependencies := [text "a"]
  calls := [text "f"]
  independent := some (text "t")

theorem run_analysed_for_caller :
    let b := ((empty {}).run calling).definitions
    caller ∈ b.entries ∧
      (∀ c ∈ Formula.calls Lexicon.builtin b.arities caller.rhs, c.expected = some c.given ∧
        ∃ f, b.find? c.name = some f ∧ f.arity = c.given) ∧
      Formula.withProducts Lexicon.builtin b.names caller.rhs = caller.rhs := by
  have hd : caller ∈ ((empty {}).run calling).definitions.entries := by decide +kernel
  exact ⟨hd, (run_analysed {} calling caller hd).2.2⟩

end Sheet

/-! ## Where definitions come from

A stored definition keeps its head and its right-hand side, so whatever planning
checks of them holds of every definition of a sheet: the formula is balanced, and
no function takes a reserved name.
-/

variable {live : LiveNames} {raw : Text} {p : Plan}

/-- The definition is one that a text defines, with names in use at that time. -/
def Definition.ComesFrom (r : Reading) (d : Definition) : Prop :=
  ∃ live arities raw p, plan r live arities raw = .ok p ∧ p.head.kind ≠ .parameter ∧
    d.kind = p.head.kind ∧ d.name = p.head.name ∧ d.formals = p.head.formals ∧ d.rhs = p.rhs

theorem Definition.ComesFrom.of_core {d d' : Definition} (h : d.ComesFrom r)
    (hc : d.core = d'.core) : d'.ComesFrom r := by
  have hcore : d.core.ComesFrom r := h
  rw [hc] at hcore
  exact hcore

theorem Definition.ComesFrom.isBalanced {d : Definition} (h : d.ComesFrom r) :
    Bracket.isBalanced d.rhs = true := by
  obtain ⟨_, _, _, p, hp, hk, -, -, -, hrhs⟩ := h
  exact hrhs ▸ isBalanced_of_plan hp hk

theorem Definition.ComesFrom.not_isReserved {d : Definition} (h : d.ComesFrom r)
    (hk : d.isAnonymous = false) : r.lexicon.isReserved r.complex d.name = false := by
  obtain ⟨_, _, _, p, hp, -, hkind, hname, -, -⟩ := h
  rw [hname]
  refine not_isReserved_of_plan hp p.head.name ?_
  have hne : d.kind ≠ .anonymous := by simpa [Definition.isAnonymous] using hk
  rw [hkind] at hne
  cases hhead : p.head with
  | anonymous => simp [hhead, Head.kind] at hne
  | _ => simp [Plan.introduced]

namespace Sheet

variable {s t : Sheet} {a : Action}

/-- Every definition comes from a text. -/
def Defined (s : Sheet) : Prop := ∀ d ∈ s.definitions.entries, d.ComesFrom s.reading

theorem Defined.alike (hd : s.Defined) (ha : Alike s t) : t.Defined := by
  intro d hin
  obtain ⟨d', hin', hcore⟩ := DefinitionBook.exists_core_of_mem ha.cores hin
  rw [ha.reading]
  exact (hd d' hin').of_core hcore

theorem Defined.without (hd : s.Defined) (node : Text) : (s.without node).Defined :=
  fun d hin => hd d (mem_without.mp hin).1

theorem Defined.of_step (h : s.Consistent) (hd : s.Defined) (hs : Step s a t) : t.Defined := by
  cases hs with
  | alike ha => exact hd.alike ha
  | definitionDropped => exact hd.without _
  | parameterDropped => exact hd
  | functionLost _ hsame => exact (hd.without _).alike (hsame.alike h.parameters)
  | parameterBound _ hb =>
    intro d hin
    rw [hb.definitions] at hin
    rw [hb.reading]
    exact hd.without _ d hin
  | definitionBound hp hb =>
    intro d hin
    rw [hb.reading]
    rcases (mem_entries_of_bindsDefinition hb).mp hin with ⟨hold, -⟩ | rfl
    · exact hd d hold
    · exact ⟨_, _, _, _, hp, hb.kind, rfl, rfl, rfl, rfl⟩

theorem defined_run (r : Reading) (actions : List Action) : ((empty r).run actions).Defined :=
  ((consistent_empty r).run_induction (P := Defined) (fun _ hd => absurd hd List.not_mem_nil)
    fun _ _ _ _ h hs hd => hd.of_step h hs).2

end Sheet

end Formulary
