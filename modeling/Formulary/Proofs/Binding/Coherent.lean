import Formulary.Proofs.Binding.Sides
import Formulary.Proofs.Formula.Fewer

/-! # What a plan guarantees

The checks of planning are made on different texts: before and after products are
written out, with and without the function that is being defined, and with those of
known arity only. Together they hold of the plan as it comes out.
-/

namespace Formulary

variable {r : Reading} {live : LiveNames} {arities : Formula.Arities} {raw : Text} {p : Plan}

namespace Plan

/-- The functions in sight without the one that is being defined. -/
def userFunctions (live : LiveNames) (arities : Formula.Arities) : List Name :=
  arities.names ++ live.functions

/-- The tokens of the right-hand side. -/
def tokens (r : Reading) (live : LiveNames) (arities : Formula.Arities) (p : Plan) :
    List Formula.Token :=
  Formula.tokens r.lexicon (userFunctions live arities) p.rhs

/-- The names that a plan depends on. -/
structure Resolved (r : Reading) (live : LiveNames) (p : Plan) : Prop where
  distinct : p.dependencies.Nodup
  unbound : ∀ d ∈ p.dependencies, d ∉ p.head.formals
  unreserved : ∀ d ∈ p.dependencies, r.lexicon.isConstant r.complex d = false
  missing : p.missing = p.dependencies.filter fun d => !live.contains d
  existing : p.existing = p.dependencies.filter fun d => live.contains d

/-- A call is one of a function that is built in, or that is in sight and gets as many arguments as
it takes, where that is known. -/
def Called (r : Reading) (live : LiveNames) (arities : Formula.Arities) (rhs : Text)
    (k : Formula.Token) : Prop :=
  r.lexicon.isFunction k.text = true ∨ k.text ∈ userFunctions live arities ∧
    ∀ n, arities.get? k.text = some n → ∃ opening,
      Text.find? rhs '(' (k.position + k.text.length) = some opening ∧
        Bracket.argumentCount rhs opening = n

/-- The formula of a plan. Its tokens are the same when the function that is being defined is known
as well. -/
structure Formulated (r : Reading) (live : LiveNames) (arities : Formula.Arities) (p : Plan) :
    Prop where
  balanced : Bracket.isBalanced p.rhs = true
  unsigned : Assignment.find? p.rhs = none
  tokens : p.tokens r live arities =
    Formula.tokens r.lexicon (functionNames live arities p.head) p.rhs
  dependencies : ∀ d, d ∈ p.dependencies ↔
    (∃ k ∈ p.tokens r live arities, k.kind = .atom ∧ k.text = d) ∧
      d ∉ p.head.formals ∧ r.lexicon.isConstant r.complex d = false
  notSelf : ∀ k ∈ p.tokens r live arities, k.kind = .atom ∨ k.kind = .func →
    k.text ≠ p.head.name
  calls : ∀ k ∈ p.tokens r live arities, k.kind = .func → Called r live arities p.rhs k

end Plan

/-! ### Heads -/

theorem Head.Spells.name_not_mem {head : Head} {words : List Text} (h : Head.Spells head words) :
    head.name ∉ head.formals := by
  cases h with
  | anonymous => exact List.not_mem_nil
  | parameter => exact List.not_mem_nil
  | function _ _ _ hfresh => exact hfresh

/-- No formal has the name of the function. -/
theorem name_not_mem_formals_of_plan (h : plan r live arities raw = .ok p) :
    p.head.name ∉ p.head.formals := by
  obtain ⟨left, right, written, hsteps⟩ := Plan.steps_of_plan h
  obtain ⟨words, hwords, -⟩ :=
    Head.spells_of_parse (Plan.writtenHead_eq_ok.mp hsteps.head).2
  obtain ⟨_, hsettled, -⟩ := hwords.settle right
  rw [(Plan.of_assemble hsteps.assembled).1]
  exact hsettled.name_not_mem

/-- The name that is defined is no constant, nor is that of the plot. -/
theorem not_isConstant_of_plan (hlex : r.lexicon = Lexicon.builtin)
    (h : plan r live arities raw = .ok p) :
    r.lexicon.isConstant r.complex p.head.name = false := by
  have hplot : ∀ complex, Lexicon.builtin.isConstant complex plotName = false := by decide
  have hreserved := not_isReserved_of_plan h p.head.name
  cases hhead : p.head with
  | anonymous => exact hlex ▸ hplot r.complex
  | parameter s =>
    rw [hhead] at hreserved
    exact (Bool.or_eq_false_iff.mp (hreserved List.mem_cons_self)).2
  | function s formals =>
    rw [hhead] at hreserved
    exact (Bool.or_eq_false_iff.mp (hreserved List.mem_cons_self)).2

/-! ### Formulas -/

namespace Formula

variable {lex : Lexicon} {functions bound : List Name} {complex : Bool} {t : Text} {name : Name}

theorem mem_freeSymbols : name ∈ freeSymbols lex complex bound functions t ↔
    (∃ k ∈ tokens lex functions t, k.kind = .atom ∧ k.text = name) ∧
      name ∉ bound ∧ lex.isConstant complex name = false := by
  simp [freeSymbols, Text.mem_dedup, and_assoc]

theorem given_of_callOf? {k : Token} {c : Call} (h : callOf? lex arities t k = some c) :
    c.name = k.text ∧ ∃ opening, Text.find? t '(' (k.position + k.text.length) = some opening ∧
      Bracket.argumentCount t opening = c.given := by
  unfold callOf? at h
  split at h
  case isFalse => simp at h
  case isTrue =>
    obtain ⟨opening, hopening, rfl⟩ := Option.map_eq_some_iff.mp h
    exact ⟨rfl, opening, hopening, rfl⟩

end Formula

namespace Planned

variable (hp : Planned r live arities raw p)

include hp

theorem mem_dependencies (d : Name) : d ∈ p.dependencies ↔
    (∃ k ∈ Formula.tokens r.lexicon (Plan.functionNames live arities p.head) p.rhs,
      k.kind = .atom ∧ k.text = d) ∧
    d ∉ p.head.formals ∧ r.lexicon.isConstant r.complex d = false := by
  rw [hp.dependencies]
  exact Formula.mem_freeSymbols

/-- Where the formula does not call itself, it may be cut without its own name. -/
theorem tokens_eq (hk : p.head.kind ≠ .parameter) : p.tokens r live arities =
    Formula.tokens r.lexicon (Plan.functionNames live arities p.head) p.rhs := by
  obtain ⟨t, ht⟩ := hp.rhs hk
  have hwritten := ht ▸ Formula.writtenOut_withProducts r.lexicon
    (Plan.functionNames live arities p.head) t
  refine (hwritten.of_userCalls fun name hname => ?_).1
  have hin := Formula.mem_of_mem_userCalls hname
  rw [Plan.functionNames, List.mem_append] at hin
  refine hin.resolve_right fun hown => ?_
  split at hown
  · obtain rfl := List.mem_singleton.mp hown
    exact (hp.notSelf hk).2 (Formula.mem_userCalls.mp hname).1
  · cases hown

theorem ne_of_func {k : Formula.Token} (hk : p.head.kind ≠ .parameter)
    (htoken : k ∈ p.tokens r live arities) (hfunc : k.kind = .func) : k.text ≠ p.head.name := by
  intro hname
  rw [hp.tokens_eq hk] at htoken
  exact (hp.notSelf hk).2 (Formula.mem_calledNames.mpr ⟨k, htoken, hfunc, hname⟩)

/-- The count of arguments is checked with the functions of known arity alone, and a call of one of
them is found with all of them too. -/
theorem called {k : Formula.Token} (hk : p.head.kind ≠ .parameter)
    (htoken : k ∈ p.tokens r live arities) (hfunc : k.kind = .func) :
    Plan.Called r live arities p.rhs k := by
  cases hbuiltin : r.lexicon.isFunction k.text with
  | true => exact Or.inl hbuiltin
  | false =>
    have hcallable := Formula.isCallable_iff.mp (Formula.isCallable_of_mem_calledNames
      (Formula.mem_calledNames.mpr ⟨k, htoken, hfunc, rfl⟩))
    rw [hbuiltin] at hcallable
    refine Or.inr ⟨hcallable.resolve_left (by simp), fun n hn => ?_⟩
    have harity : k.text ∈ arities.names := Formula.Arities.isSome_get?.mp (by rw [hn]; rfl)
    have hfound : k ∈ Formula.tokens r.lexicon arities.names p.rhs :=
      Formula.mem_tokens_of_fewer (fun _ => List.mem_append_left _) htoken fun _ => harity
    obtain ⟨c, hc, -⟩ := Formula.callOf?_isSome arities hfound hfunc hbuiltin
    obtain ⟨hname, opening, hopening, hgiven⟩ := Formula.given_of_callOf? hc
    have hmem : c ∈ p.calls := by
      rw [hp.calls]
      exact List.mem_filterMap.mpr ⟨k, hfound, hc⟩
    have hexpected := hp.fits c hmem (hname ▸ hp.ne_of_func hk htoken hfunc)
    rw [Formula.expected_of_callOf? hc, hname, hn] at hexpected
    exact ⟨opening, hopening, hgiven.trans (Option.some.inj hexpected).symm⟩

end Planned

/-- A plan that succeeds has passed all checks with the formula that it ends up with. -/
theorem coherent_of_plan (hlex : r.lexicon = Lexicon.builtin)
    (h : plan r live arities raw = .ok p) :
    p.Resolved r live ∧ (p.head.kind ≠ .parameter → p.Formulated r live arities) := by
  have hp := planned_of_plan h
  obtain ⟨hmissing, hexisting, hdistinct⟩ := partition_of_plan h
  constructor
  · constructor
    case distinct => exact hdistinct
    case unbound => exact fun d hd => ((hp.mem_dependencies d).mp hd).2.1
    case unreserved => exact fun d hd => ((hp.mem_dependencies d).mp hd).2.2
    case missing => exact hmissing
    case existing => exact hexisting
  · intro hk
    have htokens := hp.tokens_eq hk
    constructor
    case balanced => exact isBalanced_of_plan h hk
    case unsigned => exact unsigned_of_plan h hk
    case tokens => exact htokens
    case dependencies =>
      rw [htokens]
      exact hp.mem_dependencies
    case notSelf =>
      rintro k htoken (hatom | hfunc)
      · intro hname
        apply (hp.notSelf hk).1
        rw [hp.mem_dependencies]
        exact ⟨⟨k, htokens ▸ htoken, hatom, hname⟩, name_not_mem_formals_of_plan h,
          not_isConstant_of_plan hlex h⟩
      · exact hp.ne_of_func hk htoken hfunc
    case calls => exact fun k htoken hfunc => hp.called hk htoken hfunc

/-- A definition with a function of known arity, one of unknown arity, a built-in one, a formal and
a constant. -/
theorem coherent_of_plan_with_calls :
    let live : LiveNames :=
      [(text "g", some .function), (text "hh", some .function), (text "a", none)]
    let arities : Formula.Arities := [(text "g", 2)]
    let p : Plan := {
      head := .function ⟨'f', none, 0⟩ [text "x"]
      rhs := text "g(x, 2*a)*hh(π)*sin(b)"
      dependencies := [text "a", text "b"]
      missing := [text "b"]
      existing := [text "a"]
      calls := [⟨text "g", 2, some 2, 0⟩]
      transition := none }
    plan {} live arities (text "f(x) = g(x, 2a)hh(pi)sin(b)") = .ok p ∧
      p.Resolved {} live ∧ p.Formulated {} live arities := by
  intro live arities p
  have hplan : plan {} live arities (text "f(x) = g(x, 2a)hh(pi)sin(b)") = .ok p := by
    decide +kernel
  obtain ⟨hresolved, hformulated⟩ := coherent_of_plan rfl hplan
  exact ⟨hplan, hresolved, hformulated (by decide)⟩

end Formulary
