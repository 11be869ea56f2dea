import Formulary.Proofs.Calc.Renaming
import Formulary.Proofs.Eval.Renamed
import Formulary.Proofs.Sheet.Rewritten
import Formulary.Proofs.Sheet.Scope

/-! # Other names for formals

A formal may have another name: the arguments are then bound to that, and what the definition
is evaluated to does not change. This fails for a formal with the name of a function without
formals, which is written out in its place, and for one with the name of a parameter that
a function on the way depends on, which gets the argument instead.
-/

namespace Formulary

open Identifier (ofName)
open Text (Words)

/-- The name, or the other name in place of the one. -/
def replaceName (p q n : Name) : Name := if n = p then q else n

namespace Sheet

variable {s : Sheet} {d : Definition} {p q n m : Name} {formals : List Name} {key : Text}
  {args : List Double} {w : Text} {scope scope' : Scope} {pairs : List (Name × Double)}

/-! ### Values for other names -/

theorem replaceName_ne (h : n ≠ p) : replaceName p q n = n := if_neg h

theorem replaceName_inj (hn : n ≠ q) (hm : m ≠ q) :
    replaceName p q n = replaceName p q m ↔ n = m := by
  unfold replaceName
  grind

theorem replaceName_ne_self (hq : q ≠ p) (n : Name) : replaceName p q n ≠ p := by
  unfold replaceName
  grind

theorem exists_replaceName_eq (h : m ≠ p) : ∃ n ≠ q, replaceName p q n = m := by
  by_cases hm : m = q
  · exact ⟨p, hm ▸ Ne.symm h, hm ▸ if_pos rfl⟩
  · exact ⟨m, hm, replaceName_ne h⟩

/-- What is bound to names is bound to other names too, whatever is hidden. -/
theorem mem_bindAll_replaceName (h : scope.Keyed) (h' : scope'.Keyed) (hq : q ∉ pairs.map Prod.fst)
    (hagree : ∀ n ∉ pairs.map Prod.fst, n ≠ q → ∀ x, (replaceName p q n, x) ∈ scope' ↔
    (n, x) ∈ scope) :
    ∀ n ≠ q, ∀ x, (replaceName p q n, x) ∈ bindAll (pairs.map (Prod.map (replaceName p q) id))
      scope' ↔
      (n, x) ∈ bindAll pairs scope := by
  induction pairs generalizing scope scope' with
  | nil => exact fun n hn x => hagree n List.not_mem_nil hn x
  | cons a pairs ih =>
    rw [List.map_cons, List.mem_cons, not_or] at hq
    rw [List.map_cons, bindAll_cons, bindAll_cons]
    refine ih h.setValue h'.setValue hq.2 fun n hn hnq x => ?_
    rw [h.mem_setValue]
    show (replaceName p q n, x) ∈ ParameterBook.setValue (replaceName p q a.1) a.2 scope' ↔ _
    rw [h'.mem_setValue, ne_eq, ne_eq, replaceName_inj hnq (Ne.symm hq.1)]
    refine or_congr_right (and_congr_right fun hne => hagree n ?_ hnq x)
    rw [List.map_cons, List.mem_cons, not_or]
    exact ⟨hne, hn⟩

/-- Bound to other names, values are those that were bound, but for one that is not hidden any
more. -/
theorem perm_bindAll_replaceName (h : scope.Keyed) (hp : p ∈ pairs.map Prod.fst)
    (hq : q ∉ pairs.map Prod.fst)
    (hfree : q ∉ scope.map Prod.fst) :
    ((bindAll (pairs.map (Prod.map (replaceName p q) id)) scope).filter (·.1 != p)).Perm
      ((bindAll pairs scope).map (Prod.map (replaceName p q) id)) := by
  have hqp : q ≠ p := fun heq => hq (heq ▸ hp)
  have hmem := mem_bindAll_replaceName (p := p) h h hq fun n hn _ x => by
    have hnp : n ≠ p := by
      rintro rfl
      exact hn hp
    rw [replaceName_ne hnp]
  have hne (x : Name × Double) (hx : x ∈ bindAll pairs scope) : x.1 ≠ q := by
    rintro rfl
    exact (mem_keys_bindAll.mp (List.mem_map_of_mem hx)).elim hq hfree
  have hnodup : ((bindAll pairs scope).map (Prod.map (replaceName p q) id)).Nodup := by
    refine List.Nodup.map_on (fun x hx y hy hxy => ?_) (keyed_bindAll h).of_map
    obtain ⟨hname, hvalue⟩ := Prod.mk.inj hxy
    exact Prod.ext ((replaceName_inj (hne x hx) (hne y hy)).mp hname) hvalue
  refine (List.perm_ext_iff_of_nodup ((keyed_bindAll h).of_map.filter _) hnodup).mpr ?_
  rintro ⟨m, v⟩
  rw [List.mem_filter, List.mem_map, bne_iff_ne]
  constructor
  · rintro ⟨hin, hm⟩
    obtain ⟨n, hn, rfl⟩ := exists_replaceName_eq (q := q) hm
    exact ⟨(n, v), (hmem n hn v).mp hin, rfl⟩
  · rintro ⟨⟨n, w⟩, hin, heq⟩
    obtain ⟨rfl, rfl⟩ := Prod.mk.inj heq
    exact ⟨(hmem n (hne _ hin) w).mpr hin, replaceName_ne_self hqp n⟩

/-- What is bound anew may be infinite too. -/
theorem infinites_bindAll :
    (bindAll pairs scope).infinites ≤ scope.infinites + Scope.infinites pairs := by
  have hset (a : Name × Double) (scope : Scope) :
      Scope.infinites (ParameterBook.setValue a.1 a.2 scope) ≤
        scope.infinites + Scope.infinites [a] := by
    unfold Scope.infinites
    induction scope with
    | nil => simp [ParameterBook.setValue]
    | cons b scope ih =>
      rw [ParameterBook.setValue]
      split
      · simp only [List.countP_cons, List.countP_nil]
        omega
      · simp only [List.countP_cons, List.countP_nil] at ih ⊢
        omega
  induction pairs generalizing scope with
  | nil => exact Nat.le_refl _
  | cons a pairs ih =>
    rw [bindAll_cons]
    refine Nat.le_trans ih ?_
    have hfirst := hset a scope
    unfold Scope.infinites at hfirst ⊢
    simp only [List.countP_cons, List.countP_nil] at hfirst ⊢
    omega

/-! ### Names that can be exchanged -/

/-- Evaluating the definition can meet the name: of a parameter, of a formal, or one that a
definition on the way depends on. -/
def Meets (s : Sheet) (d : Definition) (n : Name) : Prop :=
  n ∈ s.parameters.names ∨ n ∈ d.formals ∨
    ∃ e ∈ s.definitions.entries, s.Reaches d e ∧ n ∈ e.dependencies

/-- The formal `p` of the definition may be named `q`. -/
structure Exchangeable (s : Sheet) (d : Definition) (p q : Name) : Prop where
  formal : p ∈ d.formals
  canonical : ∃ y : Symbol, y.Proper ∧ y.name = q
  reserved : s.reading.lexicon.isReserved s.reading.complex q = false
  fresh : ¬ s.Meets d q ∧ q ∉ s.definitions.names
  unshadowed : s.Unshadowed d
  -- A definition on the way that depends on `p` gets the argument for it.
  uncaptured : ∀ e ∈ s.definitions.entries, s.Reaches d e → p ∉ e.dependencies
  apart : ∀ e ∈ s.definitions.entries, s.Reaches d e →
    ∀ k ∈ Formula.tokens s.reading.lexicon s.definitions.names e.rhs, k.kind = .other →
      ∀ c ∈ k.text, Text.isIdentRest c = false
  unquoted : s.QuotesNothing d

/-- Whatever evaluating the definition can meet is spelled as it was, but for the formal. -/
structure Fixes (s : Sheet) (d : Definition) (p : Name) (spell : Text → Text) : Prop where
  names : ∀ n, s.Meets d n → n ≠ p → spell (ofName n) = ofName n
  routines : ∀ n ∈ s.definitions.names,
    spell (Repertoire.routineId n) = Repertoire.routineId n
  builtin : ∀ id, IsBuiltin id → spell id = id

theorem Exchangeable.ne (h : s.Exchangeable d p q) :
    q ≠ p := fun heq => h.fresh.1 (Or.inr (Or.inl (heq ▸ h.formal)))

/-! ### The definition with another name for a formal -/

/-- The sheet with another name for a formal of the definition, wherever its formula has it. -/
def renameFormal (s : Sheet) (d : Definition) (p q : Name) : Sheet :=
  s.rewrite d (d.formals.map (replaceName p q))
    (Formula.rename s.reading.lexicon s.definitions.names p q d.rhs)

/-- What a refusal tells, texts and names apart. -/
def cause : ComputeError → Option String × Option Failure.Kind
  | .sheet e => (some e.code, none)
  | .formula e => e.cause

theorem Sound.isConstant_formal (h : s.Sound) (hd : d ∈ s.definitions.entries)
    (hp : p ∈ d.formals) :
    s.reading.lexicon.isConstant s.reading.complex p = false := by
  obtain ⟨live, arities, raw, plan, hplan, -, -, -, hformals, -⟩ := h.defined d hd
  have hreserved := not_isReserved_of_plan hplan p (by
    rw [hformals] at hp
    cases hhead : plan.head with
    | anonymous => simp [hhead, Head.formals] at hp
    | _ => exact List.mem_cons_of_mem _ (hhead ▸ hp))
  rw [Lexicon.isReserved, Bool.or_eq_false_iff] at hreserved
  exact hreserved.2

theorem Sound.isAnonymous_of_formal (h : s.Sound) (hd : d ∈ s.definitions.entries)
    (hp : p ∈ d.formals) :
    d.isAnonymous = false := by
  obtain ⟨live, arities, raw, plan, hplan, -, hkind, -, hformals, -⟩ := h.defined d hd
  rw [hformals] at hp
  cases hhead : plan.head with
  | anonymous => simp [hhead, Head.formals] at hp
  | _ => simp [Definition.isAnonymous, hkind, hhead, Head.kind]

theorem Exchangeable.shared (h : s.Exchangeable d p q) (hs : s.Sound)
    (hd : d ∈ s.definitions.entries)
    (hwords : ∀ c ∈ s.reading.lexicon.constants,
      Words IsBuiltin c.expression ∧ Unquoted c.expression)
    {spell : Text → Text} (hfixed : s.Fixes d p spell) :
    s.repertoire.Shared (s.renameFormal d p q).repertoire (fun id => spell id = id)
      (s.Formulas d) := by
  have hformals : d.formals.map (replaceName p q) ≠ [] := by
    simpa using List.ne_nil_of_mem h.formal
  refine { hs.within h.unshadowed h.unquoted ?_ ?_ (Or.inl h.apart) with
    lexicon := rfl, complex := rfl, names := ?_, target := ?_, plain := ?_
    words := fun c hc => (hwords c hc).1, builtin := fun {id} => hfixed.builtin id
    routine := ?_ }
  · exact fun c hc => ⟨fun n after hn hword _ => Or.inl ((hwords c hc).1 n after hn hword),
      (hwords c hc).2⟩
  · intro e he hreach name hname _
    refine hfixed.names name (Or.inr (Or.inr ⟨e, he, hreach, hname⟩)) ?_
    rintro rfl
    exact h.uncaptured e he hreach hname
  · rw [renameFormal, (hs.rewrite hd).functionNames, hs.functionNames]
    exact names_rewrite hs.definitions hd
  · rintro _ _ ⟨e, he, hreach, rfl, rfl⟩ k hk
    rw [hs.functionNames] at hk
    exact hs.target?_rewrite hd (hs.isAnonymous_of_formal hd h.formal) (List.ne_nil_of_mem h.formal)
      hformals he hreach hk
  · rintro _ _ ⟨e, he, hreach, rfl, rfl⟩ k hk
    rw [hs.functionNames] at hk
    exact h.apart e he hreach k hk
  · intro name hsome
    obtain ⟨⟨fs, r⟩, hfunction⟩ := Option.isSome_iff_exists.mp hsome
    obtain ⟨f, hf, hnamed, hname, -, -⟩ := hs.function?_eq_some.mp hfunction
    exact hfixed.routines name (DefinitionBook.mem_names.mpr ⟨f, hf, hnamed, hname⟩)

/-- The formal and the name in its place are symbols wherever they stand. -/
theorem Exchangeable.isOpen (h : s.Exchangeable d p q) (hs : s.Sound)
    (hd : d ∈ s.definitions.entries) :
    s.repertoire.IsOpen p ∧ (s.renameFormal d p q).repertoire.IsOpen p ∧
      (s.renameFormal d p q).repertoire.IsOpen q := by
  have hp := hs.isConstant_formal hd h.formal
  have hq := h.reserved
  rw [Lexicon.isReserved, Bool.or_eq_false_iff] at hq
  refine ⟨⟨hp, fun rhs hrhs => ?_⟩, ⟨hp, fun rhs hrhs => ?_⟩, ⟨hq.2, fun rhs hrhs => ?_⟩⟩
  · obtain ⟨f, hf, hnamed, rfl, hformals, -⟩ := hs.function?_eq_some.mp hrhs
    exact h.unshadowed d hd .refl f hf hnamed hformals h.formal
  · obtain ⟨f, hf, hnamed, hname, hformals, -⟩ := (hs.rewrite hd).function?_eq_some.mp hrhs
    rcases (mem_rewrite hs.definitions hd).mp hf with ⟨hf, -⟩ | rfl
    · exact h.unshadowed d hd .refl f hf hnamed hformals (hname ▸ h.formal)
    · exact List.ne_nil_of_mem h.formal (List.map_eq_nil_iff.mp hformals)
  · obtain ⟨f, hf, hnamed, hname, -, -⟩ := (hs.rewrite hd).function?_eq_some.mp hrhs
    refine h.fresh.2 (names_rewrite hs.definitions hd ▸ DefinitionBook.mem_names.mpr ⟨f, hf, hnamed,
      hname⟩)

/-- The formula has the other name in place of each atom of the formal. -/
theorem Exchangeable.tokens (h : s.Exchangeable d p q) (hs : s.Sound)
    (hd : d ∈ s.definitions.entries) :
    List.Forall₂ (Formula.SameBut p q) (Formula.tokens s.reading.lexicon s.definitions.names d.rhs)
      (Formula.tokens s.reading.lexicon s.definitions.names
        (Formula.rename s.reading.lexicon s.definitions.names p q d.rhs)) := by
  obtain ⟨y, hy, rfl⟩ := h.canonical
  obtain ⟨ps, hps, hapart, -, hwritten⟩ := hs.pieces hd
  have hlow : Formula.NoLow ps := by
    intro x hx hother hin
    obtain ⟨k, hk, hkind, htext⟩ := Formula.mem_lay hx
    rw [← Formula.tokens_written hps hapart, hwritten] at hk
    have := h.apart d hd .refl k hk (hkind.trans hother) '_' (htext ▸ hin)
    exact absurd this (by decide)
  rw [← hwritten]
  exact Formula.tokens_rename hps hapart hlow hy

/-- The value of a definition at an argument for each formal. -/
theorem evaluate_of_formals [Arithmetic] (hd : s.definitions.lookup? key = some d)
    (hformals : d.formals ≠ [])
    (hargs : args.length = d.formals.length) : s.evaluate key args =
      (s.repertoire.evaluate d.rhs (bindAll (d.formals.zip args) s.parameters.scope)).mapError
      .formula := by
  have hinputs : d.inputs = d.formals := by
    rw [Definition.inputs, if_neg (by simpa using hformals)]
  unfold evaluate
  rw [hd]
  simp only [scopeFor_eq, hinputs, hargs, or_true, if_true]

theorem mem_keys_of_formals (h : s.parameters.Keyed) (hlength : args.length = formals.length) :
    n ∈ (bindAll (formals.zip args) s.parameters.scope).map Prod.fst ↔
      n ∈ formals ∨ n ∈ s.parameters.names := by
  rw [mem_keys_bindAll, List.map_fst_zip hlength.ge, h.keys_scope]

theorem infinites_of_formals (h : s.parameters.Keyed) (hlength : args.length = formals.length) :
    (bindAll (formals.zip args) s.parameters.scope).infinites ≤
      (s.parameters.entries.map Parameter.value ++ args).countP fun x => !x.isFinite := by
  have hargs : (formals.zip args).map Prod.snd = args := List.map_snd_zip hlength.le
  have hcount (scope : Scope) :
      scope.infinites = (scope.map Prod.snd).countP fun x => !x.isFinite := by
    rw [Scope.infinites, List.countP_map]
    rfl
  have hvalues : s.parameters.scope.map Prod.snd = s.parameters.entries.map Parameter.value := by
    rw [h.scope_eq, List.map_map]
    rfl
  have hbound : (bindAll (formals.zip args) s.parameters.scope).infinites ≤ _ := infinites_bindAll
  rwa [hcount s.parameters.scope, hcount (formals.zip args), hargs, hvalues,
    ← List.countP_append] at hbound

/-- At all its arguments, a definition has the same value, or is refused for the same cause,
whatever its formals are named. The new name is that of no parameter, function or formal, no
formal on the way has the name of a function without formals, and no definition on the way depends
on the old name. If that is also a parameter, at most one value is infinite. -/
theorem evaluate_renameFormal [Arithmetic] [LawfulArithmetic] (r : Reading) (actions : List Action)
    (ρ : Renaming p q)
    (hwords : ∀ c ∈ r.lexicon.constants, Words IsBuiltin c.expression ∧ Unquoted c.expression)
    (hd : ((empty r).run actions).definitions.lookup? key = some d)
    (hq : ((empty r).run actions).Exchangeable d p q) (hargs : args.length = d.formals.length)
    (hfixed : ((empty r).run actions).Fixes d p ρ.spell)
    (hone : p ∈ ((empty r).run actions).parameters.names →
      (((empty r).run actions).parameters.entries.map Parameter.value ++ args).countP
        (fun x => !x.isFinite) ≤ 1) :
    ((((empty r).run actions).renameFormal d p q).evaluate key args).mapError cause =
      (((empty r).run actions).evaluate key args).mapError cause := by
  have hs := sound_run r actions
  rw [← reading_run r actions] at hwords
  generalize (empty r).run actions = s at *
  have hentry := DefinitionBook.mem_of_lookup? hd
  have hlookup : (s.renameFormal d p q).definitions.lookup? key = _ :=
    lookup?_rewrite hs.definitions hd
  have hshared := hq.shared hs hentry hwords hfixed
  obtain ⟨hp, hp', hn⟩ := hq.isOpen hs hentry
  have hformals : d.formals ≠ [] := List.ne_nil_of_mem hq.formal
  have hlength : args.length = (d.formals.map (replaceName p q)).length := by
    rw [List.length_map, hargs]
  have hkeys : s.parameters.scope.map Prod.fst = s.parameters.names := hs.parameters.keys_scope
  have hfst : (d.formals.zip args).map Prod.fst = d.formals := List.map_fst_zip hargs.ge
  have hzip : (d.formals.map (replaceName p q)).zip args =
      (d.formals.zip args).map (Prod.map (replaceName p q) id) := List.zip_map_left
  have hperm := perm_bindAll_replaceName hs.parameters.keyed_scope (hfst ▸ hq.formal)
    (fun hin => hq.fresh.1 (Or.inr (Or.inl (hfst ▸ hin)))) fun hin =>
      hq.fresh.1 (Or.inl (hkeys ▸ hin))
  rw [← hzip] at hperm
  have hothers (n : Name) (hn : n ∈ d.formals ∨ n ∈ s.parameters.names) :
      n = p ∨ ρ.spell (ofName n) = ofName n :=
    (em (n = p)).imp_right (hfixed.names n (hn.elim (Or.inr ∘ Or.inl) Or.inl))
  have hnames : ∀ x ∈ bindAll (d.formals.zip args) s.parameters.scope,
      ρ.spell (ofName x.1) = ofName (replaceName p q x.1) := by
    intro x hx
    by_cases hxp : x.1 = p
    · rw [hxp, ρ.spell_ofName, replaceName, if_pos rfl]
    · rw [replaceName_ne hxp]
      exact (hothers x.1 ((mem_keys_of_formals hs.parameters hargs).mp
        (List.mem_map_of_mem hx))).resolve_left hxp
  have hcount (hin : p ∈ (bindAll ((d.formals.map (replaceName p q)).zip args)
      s.parameters.scope).map Prod.fst) :
      (bindAll ((d.formals.map (replaceName p q)).zip args) s.parameters.scope).infinites ≤ 1 := by
    have hparameter :=
      ((mem_keys_of_formals hs.parameters hlength).mp hin).resolve_left fun hformal => by
      obtain ⟨n, -, hn⟩ := List.mem_map.mp hformal
      exact replaceName_ne_self hq.ne n hn
    exact (infinites_of_formals hs.parameters hlength).trans (hone hparameter)
  have htokens : List.Forall₂ (Formula.SameBut p q)
      (Formula.tokens s.repertoire.lexicon s.repertoire.functionNames d.rhs)
      (Formula.tokens s.repertoire.lexicon s.repertoire.functionNames
        (Formula.rename s.reading.lexicon s.definitions.names p q d.rhs)) := by
    rw [hs.functionNames]
    exact hq.tokens hs hentry
  have hvalue := hshared.evaluate (f := replaceName p q) ⟨d, hentry, .refl, rfl, rfl⟩ hq.ne hp hp'
    hn htokens (fun n hn => hothers n (Or.inl hn)) hnames
    (keyed_bindAll hs.parameters.keyed_scope) hperm hcount
  have hcause (x : Except EvalError Quantity) :
      (x.mapError ComputeError.formula).mapError cause = x.mapError EvalError.cause := by
    cases x <;> rfl
  rw [evaluate_of_formals hd hformals hargs, evaluate_of_formals hlookup
    (by simpa [Definition.rewrite] using hformals) hlength, hcause, hcause]
  exact hvalue

/-! ### With the calculator -/

/-- The calculator works alike under another name for the formal that has its place among the names
that evaluation meets, and leaves these as they are. -/
theorem Exchangeable.exists_renaming (h : s.Exchangeable d p q)
    (hplace : ∀ n, s.Meets d n → n ≠ p →
      Text.le (ofName n) (ofName p) = Text.le (ofName n) (ofName q)) :
    ∃ ρ : Renaming p q, s.Fixes d p ρ.spell := by
  classical
  let names := s.parameters.names ++ d.formals ++
    s.definitions.entries.flatMap Definition.dependencies
  have hnames (n : Name) :
      n ∈ names.filter (fun n => s.Meets d n ∧ n ≠ p) ↔ s.Meets d n ∧ n ≠ p := by
    rw [List.mem_filter, decide_eq_true_iff]
    refine ⟨And.right, fun hn => ⟨?_, hn⟩⟩
    rcases hn.1 with hn | hn | ⟨e, he, -, hn⟩
    · exact List.mem_append_left _ (List.mem_append_left _ hn)
    · exact List.mem_append_left _ (List.mem_append_right _ hn)
    · exact List.mem_append_right _ (List.mem_flatMap.mpr ⟨e, he, hn⟩)
  have hplain : ∀ w ∈ s.definitions.names.map Repertoire.routineId ++ Calculator.builtinWords,
      Calculator.IsPlainWord w :=
    List.forall_mem_append.mpr
      ⟨List.forall_mem_map.mpr fun n _ => Calculator.isPlainWord_routineId n,
        fun w => Calculator.isPlainWord_of_builtin⟩
  have hp : p ∉ names.filter fun n => s.Meets d n ∧ n ≠ p := fun hp => ((hnames p).mp hp).2 rfl
  have hq : q ∉ names.filter fun n => s.Meets d n ∧ n ≠ p := fun hq =>
    h.fresh.1 ((hnames q).mp hq).1
  obtain ⟨ρ, hfixed, hwords⟩ := Calculator.exists_renaming hplain hp hq fun n hn =>
    hplace n ((hnames n).mp hn).1 ((hnames n).mp hn).2
  exact ⟨ρ, fun n hn hne => hfixed n ((hnames n).mpr ⟨hn, hne⟩),
    fun n hn => hwords _ (List.mem_append_left _ (List.mem_map_of_mem hn)),
    fun w hw => hwords w (List.mem_append_right _ (Calculator.mem_builtinWords hw))⟩

theorem words_builtin :
    ∀ c ∈ Lexicon.builtin.constants, Words IsBuiltin c.expression ∧ Unquoted c.expression := by
  have hplain : ∀ c ∈ Lexicon.builtin.constants, '(' ∉ c.expression := by decide +kernel
  exact fun c hc => (onlyNames_builtin c hc).imp_left fun h => h.words (hplain c hc)

/-- A function whose formal has the name of a parameter, and which calls another one. -/
def throughCall : List Action :=
  [.enter (text "x = 3") false, .enter (text "g(u) = a u") false,
    .enter (text "f(x) = g(x) + x") false]

theorem evaluate_renameFormal_for_call : ∃ d,
    ((empty {}).run throughCall).definitions.lookup? (text "f") = some d ∧
      Formula.rename Lexicon.builtin [text "g", text "f"] (text "x") (text "t") d.rhs =
        text "g(t) + t" ∧
      ((((empty {}).run throughCall).renameFormal d (text "x") (text "t")).evaluate (text "f")
          [.ofInt 5]).mapError cause =
        (((empty {}).run throughCall).evaluate (text "f") [.ofInt 5]).mapError cause := by
  obtain ⟨d, hd, hformals, hrename⟩ :
      ∃ d, ((empty {}).run throughCall).definitions.lookup? (text "f") = some d ∧
        d.formals = [text "x"] ∧
        Formula.rename Lexicon.builtin [text "g", text "f"] (text "x") (text "t") d.rhs =
          text "g(t) + t" := by
    refine ⟨(((empty {}).run throughCall).definitions.lookup? (text "f")).get (by decide +kernel),
      ?_⟩
    exact ⟨by simp, by decide +kernel, by decide +kernel⟩
  obtain ⟨hparameters, hdependencies, hbare, hstray, hquotes⟩ :
      ((empty {}).run throughCall).parameters.names = [text "x", text "a"] ∧
      (∀ e ∈ ((empty {}).run throughCall).definitions.entries,
        ∀ n ∈ e.dependencies, n = text "a") ∧
      (∀ f ∈ ((empty {}).run throughCall).definitions.entries, f.formals ≠ []) ∧
      (∀ e ∈ ((empty {}).run throughCall).definitions.entries,
        ∀ k ∈ Formula.tokens ((empty {}).run throughCall).reading.lexicon
          ((empty {}).run throughCall).definitions.names e.rhs,
          k.kind = .other → k.text.any Text.isIdentRest = false) ∧
      ∀ e ∈ ((empty {}).run throughCall).definitions.entries,
        ∀ k ∈ Formula.tokens ((empty {}).run throughCall).reading.lexicon
          ((empty {}).run throughCall).definitions.names e.rhs,
          k.kind ≠ .atom → k.kind ≠ .func → Unquoted k.text := by
    decide +kernel
  have hmeets (n : Name) (hn : ((empty {}).run throughCall).Meets d n) :
      n = text "x" ∨ n = text "a" := by
    rcases hn with hn | hn | ⟨e, he, -, hn⟩
    · simpa [hparameters] using hn
    · simpa [hformals] using Or.inl hn
    · exact Or.inr (hdependencies e he n hn)
  have hq : ((empty {}).run throughCall).Exchangeable d (text "x") (text "t") := by
    constructor
    case formal => simp [hformals]
    case canonical => exact ⟨⟨'t', none, 0⟩, ⟨by decide, by simp⟩, rfl⟩
    case reserved => decide +kernel
    case fresh => exact ⟨fun hn => absurd (hmeets _ hn) (by decide), by decide +kernel⟩
    case unshadowed => exact fun e _ _ f hf _ hf' => absurd hf' (hbare f hf)
    case uncaptured => exact fun e he _ hn => absurd (hdependencies e he _ hn) (by decide)
    case apart => exact fun e he _ k hk hother => Text.eq_false_of_any (hstray e he k hk hother)
    case unquoted => exact fun e he _ => hquotes e he
  obtain ⟨ρ, hfixed⟩ := hq.exists_renaming fun n hn hne => by
    obtain rfl := (hmeets n hn).resolve_left hne
    decide
  refine ⟨d, hd, hrename, evaluate_renameFormal {} throughCall ρ words_builtin hd hq
    (by simp [hformals]) hfixed fun _ => ?_⟩
  decide +kernel

/-- A formal does not hide a function without formals: with another name for the formal, the
function has another value. -/
theorem formal_shows_bare_function : ∃ d,
    let s := (empty {}).run [.enter (text "h = (1)") false, .enter (text "f(h) = h") false]
    s.definitions.lookup? (text "f") = some d ∧
      s.evaluate (text "f") [.ofInt 5] = .ok (.real (.ofInt 1)) ∧
      (s.renameFormal d (text "h") (text "q")).evaluate (text "f") [.ofInt 5] =
        .ok (.real (.ofInt 5)) := by
  refine ⟨(((empty {}).run [.enter (text "h = (1)") false,
    .enter (text "f(h) = h") false]).definitions.lookup? (text "f")).get (by decide +kernel), ?_⟩
  exact ⟨by simp, by decide +kernel, by decide +kernel⟩

-- A function that is called gets the argument for the parameter that it depends on.
example :
    ((empty {}).run [.enter (text "a = 2") false, .enter (text "g(x) = a") false,
      .enter (text "f(a) = g(a)") false]).evaluate (text "f") [.ofInt 3] =
        .ok (.real (.ofInt 3)) := by
  decide +kernel

end Sheet

end Formulary
