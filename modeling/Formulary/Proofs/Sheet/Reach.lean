import Formulary.Proofs.Eval.Source
import Formulary.Proofs.Graph.Users
import Formulary.Proofs.Sheet.Analysed
import Formulary.Sheet.Compute

/-! # What evaluation goes into

Evaluating a definition goes into functions by the names in formulas, the graph by
what was recorded when definitions were stored. Both agree, but for formals that
hide the name of a function without formals: the graph leaves them out, and
evaluation writes the function in their place.
-/

namespace Formulary

open Relation

/-! ### The functions at hand -/

theorem DefinitionBook.Keyed.table_eq {b : DefinitionBook} (h : b.Keyed) :
    b.table = b.named.map fun d => (d.name, d.formals, d.rhs) := by
  have hn : (([] : List (Name × List Name × Text)).map Prod.fst ++
      b.named.map Definition.name).Nodup := h.names
  rw [table, foldl_setKey hn, List.nil_append]

namespace Sheet

variable {s : Sheet} {d e f : Definition} {name : Name} {formals : List Name} {rhs : Text}
  {k : Formula.Token} {B : Text → Prop}

theorem Linked.functionNames (h : s.Linked) :
    s.repertoire.functionNames = s.definitions.names := by
  have htable : s.repertoire.functions = s.definitions.table := rfl
  rw [Repertoire.functionNames, htable, h.definitions.table_eq, List.map_map]
  rfl

theorem Linked.function?_eq_some (h : s.Linked) :
    s.repertoire.function? name = some (formals, rhs) ↔ ∃ f ∈ s.definitions.entries,
      f.isAnonymous = false ∧ f.name = name ∧ f.formals = formals ∧ f.rhs = rhs := by
  have htable : s.repertoire.functions = s.definitions.table := rfl
  have hkeys : (s.definitions.table.map (·.1)).Nodup := by
    rw [h.definitions.table_eq, List.map_map]
    exact h.definitions.names
  have hfind : s.repertoire.function? name = some (formals, rhs) ↔
      (name, formals, rhs) ∈ s.definitions.table := by
    rw [Repertoire.function?, htable, Option.map_eq_some_iff]
    constructor
    · rintro ⟨⟨n, p⟩, hp, rfl⟩
      obtain ⟨hmem, rfl⟩ := (Keyed.find?_eq_some_iff hkeys).mp hp
      exact hmem
    · intro hmem
      exact ⟨_, (Keyed.find?_eq_some_iff hkeys).mpr ⟨hmem, rfl⟩, rfl⟩
  rw [hfind, h.definitions.table_eq, List.mem_map]
  simp only [DefinitionBook.mem_named, Prod.mk.injEq]
  constructor
  · rintro ⟨f, ⟨hf, hk⟩, hname, hformals, hrhs⟩
    exact ⟨f, hf, hk, hname, hformals, hrhs⟩
  · rintro ⟨f, hf, hk, hname, hformals, hrhs⟩
    exact ⟨f, ⟨hf, hk⟩, hname, hformals, hrhs⟩

/-! ### The definitions that one refers to -/

/-- A sheet as actions leave it: in order, with what is recorded true. -/
structure Sound (s : Sheet) : Prop extends Consistent s where
  current : s.Current
  defined : s.Defined

theorem sound_run (r : Reading) (actions : List Action) : ((empty r).run actions).Sound :=
  ⟨consistent_run r actions, current_run r actions, defined_run r actions⟩

/-- A chain of references leads from one definition to the other. -/
def Reaches (s : Sheet) (d e : Definition) : Prop := ReflTransGen s.graph.Refers d.node e.node

theorem Linked.refers (h : s.Linked) (he : e ∈ s.definitions.entries) (hn : name ∈ e.references) :
    s.graph.Refers e.node name := by
  rw [Graph.Refers, h.references_node he]
  exact hn

theorem Linked.reaches_function (h : s.Linked) (he : e ∈ s.definitions.entries)
    (hd : s.Reaches d e) (hk : f.isAnonymous = false) (hn : f.name ∈ e.references) :
    s.Reaches d f := by
  rw [← node_of_not_isAnonymous hk] at hn
  exact hd.tail (h.refers he hn)

/-- A name in a formula that is not reserved is a formal or a dependency. -/
theorem Sound.mem_dependencies (h : s.Sound) (he : e ∈ s.definitions.entries)
    (hk : k ∈ Formula.tokens s.reading.lexicon s.definitions.names e.rhs) (hatom : k.kind = .atom)
    (hconstant : s.reading.lexicon.isConstant s.reading.complex k.text = false)
    (hformal : k.text ∉ e.formals) : k.text ∈ e.dependencies := by
  rw [← (h.current e he).dependencies, h.definitions.names_arities]
  simp only [Formula.freeSymbols, Text.mem_dedup, List.mem_filter, List.mem_map]
  exact ⟨⟨k, ⟨hk, by simpa using hatom⟩, rfl⟩, by simp [hconstant, hformal]⟩

/-- A function that a formula calls is among its calls. -/
theorem Sound.mem_calls (h : s.Sound) (he : e ∈ s.definitions.entries)
    (hk : k ∈ Formula.tokens s.reading.lexicon s.definitions.names e.rhs) (hfunc : k.kind = .func)
    (hf : f ∈ s.definitions.entries) (hnamed : f.isAnonymous = false) (hname : f.name = k.text) :
    k.text ∈ e.calls := by
  rw [(h.current e he).mem_calls, h.definitions.names_arities, Formula.mem_userCalls,
    Formula.mem_calledNames]
  refine ⟨⟨k, hk, hfunc, rfl⟩, ?_⟩
  have hreserved := (h.defined f hf).not_isReserved hnamed
  rw [Lexicon.isReserved, Bool.or_eq_false_iff, hname] at hreserved
  exact hreserved.1

/-- No formal of the definition, or of one that it refers to through others, is the name of a
function without formals. -/
def Unshadowed (s : Sheet) (d : Definition) : Prop :=
  ∀ e ∈ s.definitions.entries, s.Reaches d e → ∀ f ∈ s.definitions.entries,
    f.isAnonymous = false → f.formals = [] → f.name ∉ e.formals

/-- Beside names, nothing is quoted in the definition, nor in those that it refers to. -/
def QuotesNothing (s : Sheet) (d : Definition) : Prop :=
  ∀ e ∈ s.definitions.entries, s.Reaches d e →
    ∀ k ∈ Formula.tokens s.reading.lexicon s.definitions.names e.rhs,
      k.kind ≠ .atom → k.kind ≠ .func → Unquoted k.text

/-- The formulas of the definitions that one refers to, itself included. -/
def Formulas (s : Sheet) (d : Definition) (formals : List Name) (t : Text) : Prop :=
  ∃ e ∈ s.definitions.entries, s.Reaches d e ∧ e.formals = formals ∧ e.rhs = t

/-- Formulas of a sheet are read in pieces that stand apart, and every subscript is closed. -/
theorem Sound.pieces (h : s.Sound) (he : e ∈ s.definitions.entries) :
    ∃ ps, Formula.Reads (Formula.isCallable s.reading.lexicon s.definitions.names) ps ∧
      Formula.Apart ps ∧ Formula.Single ps ∧ Formula.written ps = e.rhs := by
  obtain ⟨ps, hps, hapart, hwritten⟩ := (h.current e he).writtenOut
  rw [h.definitions.names_arities] at hps
  refine ⟨ps, hps, hapart, hps.single (u := []) ?_, hwritten⟩
  rw [List.nil_append, hwritten]
  exact (h.defined e he).isBalanced

theorem Sound.reaches_inlined (h : s.Sound) (hu : s.Unshadowed d)
    (he : e ∈ s.definitions.entries) (hd : s.Reaches d e)
    (hk : k ∈ Formula.tokens s.reading.lexicon s.definitions.names e.rhs) (hatom : k.kind = .atom)
    (hconstant : s.reading.lexicon.isConstant s.reading.complex k.text = false)
    (hf : f ∈ s.definitions.entries) (hnamed : f.isAnonymous = false) (hname : f.name = k.text)
    (hformals : f.formals = []) : f.name ∈ e.references := by
  have hnot := hu e he hd f hf hnamed hformals
  rw [hname] at hnot ⊢
  exact List.mem_append_left _ (h.mem_dependencies he hk hatom hconstant hnot)

/-- Evaluation stays within the definitions that the graph tells, and meets dependencies of theirs
only. -/
theorem Sound.within (h : s.Sound) (hu : s.Unshadowed d) (hq : s.QuotesNothing d)
    (hconstants : ∀ c ∈ s.reading.lexicon.constants,
      Text.OnlyNames (Repertoire.Allowed B []) c.expression ∧ Unquoted c.expression)
    (hsymbols : ∀ e ∈ s.definitions.entries, s.Reaches d e → ∀ name ∈ e.dependencies,
      (∀ f ∈ s.definitions.entries, f.isAnonymous = false → f.formals = [] → f.name ≠ name) →
        B (Identifier.ofName name))
    (hstray : (∀ e ∈ s.definitions.entries, s.Reaches d e →
        ∀ k ∈ Formula.tokens s.reading.lexicon s.definitions.names e.rhs, k.kind = .other →
          ∀ c ∈ k.text, Text.isIdentRest c = false) ∨
      ∀ id, ¬ B id → ∃ name, id = Identifier.ofName name) :
    s.repertoire.Within B (s.Formulas d) := by
  have hnames := h.functionNames
  constructor
  case pieces =>
    rintro _ _ ⟨e, he, -, rfl, rfl⟩
    rw [hnames]
    exact h.pieces he
  case constants =>
    intro _ _ _ k _ _ hconstant
    cases hc : s.reading.lexicon.constant? k.text with
    | none =>
      change s.reading.lexicon.isConstant s.reading.complex k.text = true at hconstant
      simp [Lexicon.isConstant, hc] at hconstant
    | some c =>
      have hfound : s.repertoire.lexicon.constant? k.text = some c := hc
      rw [hfound]
      exact hconstants c (List.mem_of_find?_eq_some hc)
  case inlined =>
    rintro _ _ rhs ⟨e, he, hd, rfl, rfl⟩ k hk hatom hconstant hfunction
    rw [hnames] at hk
    obtain ⟨f, hf, hnamed, hname, hformals, rfl⟩ := h.function?_eq_some.mp hfunction
    have href := h.reaches_inlined hu he hd hk hatom hconstant hf hnamed hname hformals
    exact ⟨f, hf, h.reaches_function he hd hnamed href, hformals, rfl⟩
  case called =>
    rintro _ formals' _ rhs ⟨e, he, hd, rfl, rfl⟩ k hk hfunc hfunction
    rw [hnames] at hk
    obtain ⟨f, hf, hnamed, hname, hformals, rfl⟩ := h.function?_eq_some.mp hfunction
    have hcall := h.mem_calls he hk hfunc hf hnamed hname
    rw [← hname] at hcall
    exact ⟨f, hf, h.reaches_function he hd hnamed (List.mem_append_right _ hcall), hformals, rfl⟩
  case symbols =>
    rintro _ _ ⟨e, he, hd, rfl, rfl⟩ k hk hatom hconstant hbare
    rw [hnames] at hk
    by_cases hformal : k.text ∈ e.formals
    · exact Or.inr hformal
    · refine Or.inl (hsymbols e he hd k.text (h.mem_dependencies he hk hatom hconstant hformal) ?_)
      rintro f hf hnamed hformals hname
      exact hbare f.rhs (h.function?_eq_some.mpr ⟨f, hf, hnamed, hname, hformals, rfl⟩)
  case unquoted =>
    rintro _ _ ⟨e, he, hd, rfl, rfl⟩ k hk
    rw [hnames] at hk
    exact hq e he hd k hk
  case stray =>
    refine hstray.imp_left fun hstray => ?_
    rintro _ _ ⟨e, he, hd, rfl, rfl⟩ k hk
    rw [hnames] at hk
    exact hstray e he hd k hk

end Sheet

end Formulary
