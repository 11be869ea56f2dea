import Formulary.Proofs.Formula.Analysis
import Formulary.Proofs.Head.Grammar
import Formulary.Sheet.Definition

/-! # Spellings of names

The names that heads define and formulas mention start with a letter, and only a
subscript or prime marks may follow it. So none of them is an id.
-/

namespace Formulary

/-- One letter, with nothing after it or a subscript or marks. -/
def Spelled (name : Name) : Prop :=
  ∃ c rest, name = c :: rest ∧ isLetter c = true ∧ ∀ d ∈ rest.head?, d = '_' ∨ d = '\''

theorem Spelled.ne_idFor {name : Name} (h : Spelled name) (anonymous : Bool) (n : Nat) :
    name ≠ DefinitionBook.idFor anonymous n := by
  obtain ⟨c, rest, rfl, -, hrest⟩ := h
  intro he
  have hhead : rest.head? = ((DefinitionBook.idFor anonymous n).drop 1).head? := by rw [← he]; rfl
  cases anonymous with
  | false => exact absurd (hrest 'u' hhead) (by decide)
  | true => exact absurd (hrest 'l' hhead) (by decide)

theorem spelled_of_letter {c : Char} (hc : isLetter c = true) (subscript : Option Text) (n : Nat) :
    Spelled (c :: ((subscript.map Symbol.subscriptText).getD [] ++ List.replicate n '\'')) := by
  refine ⟨c, _, rfl, hc, fun d hd => ?_⟩
  cases subscript with
  | some content =>
    obtain rfl : '_' = d := by simpa [Symbol.subscriptText] using hd
    exact Or.inl rfl
  | none =>
    cases n with
    | zero => simp at hd
    | succ n =>
      obtain rfl : '\'' = d := by simpa [List.replicate_succ] using hd
      exact Or.inr rfl

/-! ### Heads -/

/-- The name that a head defines is spelled as a symbol. -/
theorem Head.spelled_of_parse {lex : Lexicon} {source : Text} {head : Head}
    (h : parse lex source = .ok head) (hk : head.kind ≠ .anonymous) : Spelled head.name := by
  obtain ⟨words, hspells, -⟩ := spells_of_parse h
  cases hspells with
  | anonymous => exact absurd rfl hk
  | @parameter s hs => exact spelled_of_letter hs.letter s.subscript s.primes
  | @function s _ hs => exact spelled_of_letter hs.letter s.subscript s.primes

/-! ### Formulas -/

namespace Formula

theorem Cut.spelled {c : Char} {w after : Text} (h : Cut .atom c w after) : Spelled (c :: w) := by
  cases h with
  | @subscripted _ content _ n hc =>
    exact spelled_of_letter hc (some content) n
  | letter n hc => exact spelled_of_letter hc none n

theorem Reads.spelled {known : Name → Bool} {ps : List Piece} {t : Text} (h : Reads known ps)
    (ht : (TokenKind.atom, t) ∈ ps) : Spelled t := by
  induction h with
  | nil => simp at ht
  | call _ _ _ _ ih => exact ih (by simpa using ht)
  | plain hcut _ ih =>
    rcases List.mem_cons.mp ht with he | ht
    · obtain ⟨rfl, rfl⟩ := Prod.mk.inj he
      exact hcut.spelled
    · exact ih ht
  | @tail c _ hc _ =>
    obtain rfl : t = [c] := by simpa using ht
    exact ⟨c, [], rfl, hc, by simp⟩

/-- A free symbol of a formula is one of its atoms. -/
theorem exists_atom_of_mem_freeSymbols {lex : Lexicon} {complex : Bool}
    {bound functions : List Name} {t : Text} {name : Name}
    (h : name ∈ freeSymbols lex complex bound functions t) :
    ∃ ps, Reads (isCallable lex functions) ps ∧ (TokenKind.atom, name) ∈ ps := by
  obtain ⟨ps, hps, -, htokens⟩ := reads_tokens lex functions t
  have hatom : ∃ k ∈ tokens lex functions t, k.kind = .atom ∧ k.text = name := by
    simp only [freeSymbols, Text.mem_dedup, List.mem_filter, List.mem_map] at h
    obtain ⟨⟨k, ⟨hk, hkind⟩, rfl⟩, -⟩ := h
    exact ⟨k, hk, by simpa using hkind, rfl⟩
  obtain ⟨k, hk, hkind, rfl⟩ := hatom
  rw [htokens] at hk
  exact ⟨ps, hps, hkind ▸ mem_of_mem_lay hk⟩

/-- The free symbols of a formula are spelled as symbols. -/
theorem spelled_of_mem_freeSymbols {lex : Lexicon} {complex : Bool} {bound functions : List Name}
    {t : Text} {name : Name} (h : name ∈ freeSymbols lex complex bound functions t) :
    Spelled name := by
  obtain ⟨ps, hps, hatom⟩ := exists_atom_of_mem_freeSymbols h
  exact hps.spelled hatom

end Formula

/-! ## What a plan says

A plan that was made has passed every check of planning. `Planned` keeps what
later steps need of that, so nothing else has to look into planning again.
-/

variable {r : Reading} {live live' : LiveNames} {arities arities' : Formula.Arities} {raw : Text}
  {p p' : Plan} {head : Head} {right : Text}

/-- The text binds a bare name to this numeral. -/
def BindsNumeral (r : Reading) (raw rhs : Text) : Prop :=
  ∃ left symbol, Plan.sides r raw = .ok (left, rhs) ∧
    Plan.writtenHead r left = .ok (.parameter symbol) ∧ Numeral.isNumeral rhs = true

structure Planned (r : Reading) (live : LiveNames) (arities : Formula.Arities) (raw : Text)
    (p : Plan) : Prop where
  numeral : p.head.kind = .parameter → BindsNumeral r raw p.rhs
  spelled : p.head.kind ≠ .anonymous → Spelled p.head.name
  change : Plan.change r live p.head = .ok p.transition
  rhs : p.head.kind ≠ .parameter → ∃ t, p.rhs =
    Formula.withProducts r.lexicon (Plan.functionNames live arities p.head) t
  dependencies : p.dependencies = Formula.freeSymbols r.lexicon r.complex p.head.formals
    (Plan.functionNames live arities p.head) p.rhs
  calls : p.calls = Formula.calls r.lexicon arities p.rhs
  missing : p.missing = p.dependencies.filter fun d => !live.contains d
  fits : ∀ c ∈ p.calls, c.name ≠ p.head.name → c.expected = some c.given
  notSelf : p.head.kind ≠ .parameter → p.head.name ∉ p.dependencies ∧
    p.head.name ∉ Formula.calledNames r.lexicon (Plan.functionNames live arities p.head) p.rhs

namespace Plan

theorem kind_of_settle {head : Head} {rhs : Text} (h : (settle head rhs).kind = .parameter) :
    ∃ symbol, head = .parameter symbol ∧ settle head rhs = head ∧ Numeral.isNumeral rhs = true := by
  cases head with
  | parameter symbol =>
    by_cases hn : Numeral.isNumeral rhs = true
    · exact ⟨symbol, rfl, by rw [settle, if_pos hn], hn⟩
    · rw [settle, if_neg hn] at h
      cases h
  | function => cases h
  | anonymous => cases h

theorem settle_spelled {head : Head} {rhs : Text}
    (h : head.kind ≠ .anonymous → Spelled head.name) :
    (settle head rhs).kind ≠ .anonymous → Spelled (settle head rhs).name := by
  intro _
  cases head with
  | parameter symbol =>
    have hname : (settle (.parameter symbol) rhs).name = symbol.name := by
      unfold settle
      dsimp only
      split <;> rfl
    rw [hname]
    exact h (by simp [Head.kind])
  | function => exact h (by simp [Head.kind])
  | anonymous => contradiction

/-- The functions in sight are those of known arity and the one that is defined. -/
theorem mem_functionNames {name : Name} (h : ∀ n ∈ live.functions, n ∈ arities.names) :
    name ∈ functionNames live arities head ↔
      name ∈ arities.names ∨ head.kind = .function ∧ name = head.name := by
  rw [functionNames, List.mem_append, List.mem_append, or_iff_left_of_imp (h name)]
  by_cases hk : head.kind = .function <;> simp [hk]

theorem fits_of_checkCalls {head : Head} {calls : List Formula.Call}
    (h : checkCalls head calls = .ok ()) :
    ∀ c ∈ calls, c.name ≠ head.name → c.expected = some c.given := by
  intro c hc hname
  unfold checkCalls at h
  split at h
  case h_2 => simp at h
  case h_1 hnone =>
    have hfault : c.fault? = none := by
      apply List.filterMap_eq_nil_iff.mp hnone c
      simpa [hname] using hc
    unfold Formula.Call.fault? at hfault
    split at hfault
    · simp at hfault
    case h_2 n hn =>
      split at hfault
      case isTrue hgiven => rw [hn, hgiven]
      case isFalse => simp at hfault

theorem require_eq_ok {side : String} {t : Text} :
    Bracket.require side t = .ok () ↔ Bracket.isBalanced t = true := by
  unfold Bracket.require Bracket.isBalanced
  cases Bracket.fault? t <;> simp

theorem writtenHead_eq_ok {left : Text} {head : Head} : writtenHead r left = .ok head ↔
    Bracket.isBalanced left = true ∧ Head.parse r.lexicon left = .ok head := by
  constructor
  · intro h
    obtain ⟨_, hbalanced, hparse⟩ := ok_of_bind h
    exact ⟨require_eq_ok.mp hbalanced, hparse⟩
  · rintro ⟨hbalanced, hparse⟩
    unfold writtenHead
    rw [require_eq_ok.mpr hbalanced]
    exact hparse

/-- The steps of planning, all of which succeed. -/
structure Steps (r : Reading) (live : LiveNames) (arities : Formula.Arities) (raw : Text)
    (left right : Text) (written : Head) (p : Plan) : Prop where
  sides : Plan.sides r raw = .ok (left, right)
  head : writtenHead r left = .ok written
  nonempty : right ≠ []
  balanced : Bracket.isBalanced right = true
  assembled : assemble r live arities (settle written right) right = .ok p

theorem steps_of_plan (h : plan r live arities raw = .ok p) :
    ∃ left right written, Steps r live arities raw left right written p := by
  obtain ⟨⟨left, right⟩, hsides, h⟩ := ok_of_bind h
  obtain ⟨written, hhead, h⟩ := ok_of_bind h
  dsimp only at h
  split at h
  case isTrue =>
    obtain ⟨_, he, -⟩ := ok_of_bind h
    simp at he
  case isFalse hnonempty =>
    obtain ⟨_, hbalanced, h⟩ := ok_of_bind h
    exact ⟨left, right, written, hsides, hhead, by simpa using hnonempty,
      require_eq_ok.mp hbalanced, h⟩

theorem Steps.plan {left right : Text} {written : Head}
    (h : Steps r live arities raw left right written p) :
    Formulary.plan r live arities raw = .ok p := by
  have hnonempty : right.isEmpty = false := by simpa using h.nonempty
  unfold Formulary.plan
  rw [h.sides]
  change (writtenHead r left >>= _) = _
  rw [h.head]
  change (ite (right.isEmpty = true) _ _) = _
  rw [if_neg (by simp [hnonempty])]
  rw [require_eq_ok.mpr h.balanced]
  exact h.assembled

theorem checkSelf_eq_ok {functions : List Name} {head : Head} {rhs : Text}
    {dependencies : List Name} : checkSelf r functions head rhs dependencies = .ok () ↔
      (head.kind ≠ .parameter → head.name ∉ dependencies ∧
        head.name ∉ Formula.calledNames r.lexicon functions rhs) := by
  unfold checkSelf
  by_cases hk : head.kind = .parameter
  · simp [hk]
  · simp [hk]

/-- What a plan is assembled from, all checks passed. -/
structure Assembled (r : Reading) (live : LiveNames) (arities : Formula.Arities) (head : Head)
    (right : Text) (p : Plan) : Prop where
  sameHead : p.head = head
  reserved : checkReserved r head = .ok ()
  change : change r live head = .ok p.transition
  rhs : p.rhs = finalRhs r (functionNames live arities head) head right
  calls : p.calls = Formula.calls r.lexicon arities p.rhs
  fits : checkCalls head p.calls = .ok ()
  dependencies : p.dependencies = Formula.freeSymbols r.lexicon r.complex head.formals
    (functionNames live arities head) p.rhs
  notSelf : checkSelf r (functionNames live arities head) head p.rhs p.dependencies = .ok ()
  missing : p.missing = p.dependencies.filter fun d => !live.contains d
  existing : p.existing = p.dependencies.filter fun d => live.contains d

theorem assemble_eq_ok :
    assemble r live arities head right = .ok p ↔ Assembled r live arities head right p := by
  constructor
  · intro h
    obtain ⟨_, hreserved, h⟩ := ok_of_bind h
    obtain ⟨transition, hchange, h⟩ := ok_of_bind h
    obtain ⟨_, hcalls, h⟩ := ok_of_bind h
    obtain ⟨_, hself, h⟩ := ok_of_bind h
    obtain rfl := Except.ok.inj h
    exact ⟨rfl, hreserved, hchange, rfl, rfl, hcalls, rfl, hself, rfl, rfl⟩
  · rintro ⟨hhead, hreserved, hchange, hrhs, hcalls, hfits, hdependencies, hself, hmissing,
      hexisting⟩
    obtain ⟨_, rhs, dependencies, missing, existing, calls, transition⟩ := p
    dsimp only at *
    subst hhead hrhs hcalls hdependencies hmissing hexisting
    unfold assemble
    rw [hreserved]
    change (Plan.change r live _ >>= _) = _
    rw [hchange]
    change (checkCalls _ _ >>= _) = _
    rw [hfits]
    change (checkSelf r _ _ _ _ >>= _) = _
    rw [hself]
    rfl

/-- An assembled plan keeps its head, and its right-hand side has products written out. -/
theorem of_assemble {head : Head} {right : Text} (h : assemble r live arities head right = .ok p) :
    p.head = head ∧ p.rhs = finalRhs r (functionNames live arities head) head right :=
  ⟨(assemble_eq_ok.mp h).sameHead, (assemble_eq_ok.mp h).rhs⟩

end Plan

theorem planned_of_plan (h : plan r live arities raw = .ok p) : Planned r live arities raw p := by
  obtain ⟨left, right, written, hsides, hwritten, -, -, h⟩ := Plan.steps_of_plan h
  have hspelled : written.kind ≠ .anonymous → Spelled written.name :=
    Head.spelled_of_parse (Plan.writtenHead_eq_ok.mp hwritten).2
  have ha := Plan.assemble_eq_ok.mp h
  have hrhs := ha.rhs
  rw [← ha.sameHead] at hrhs
  constructor
  case numeral =>
    intro hk
    have hright : p.rhs = right := hrhs.trans (if_pos hk)
    rw [ha.sameHead] at hk
    obtain ⟨symbol, rfl, -, hnumeral⟩ := Plan.kind_of_settle hk
    exact ⟨left, symbol, by rw [hright]; exact hsides, hwritten, by rw [hright]; exact hnumeral⟩
  case spelled => exact ha.sameHead ▸ Plan.settle_spelled hspelled
  case change => exact ha.sameHead ▸ ha.change
  case rhs => exact fun hk => ⟨right, hrhs.trans (if_neg hk)⟩
  case dependencies => exact ha.sameHead ▸ ha.dependencies
  case calls => exact ha.calls
  case missing => exact ha.missing
  case fits => exact ha.sameHead ▸ Plan.fits_of_checkCalls ha.fits
  case notSelf =>
    have hself := ha.notSelf
    rw [← ha.sameHead] at hself
    exact Plan.checkSelf_eq_ok.mp hself

/-- What a plan depends on is parted into what is missing and what is in use, each name once. -/
theorem partition_of_plan (h : plan r live arities raw = .ok p) :
    p.missing = p.dependencies.filter (fun d => !live.contains d) ∧
      p.existing = p.dependencies.filter (fun d => live.contains d) ∧ p.dependencies.Nodup := by
  obtain ⟨left, right, written, hsteps⟩ := Plan.steps_of_plan h
  have ha := Plan.assemble_eq_ok.mp hsteps.assembled
  exact ⟨ha.missing, ha.existing, ha.dependencies ▸ Text.nodup_dedup _⟩

/-- The names that a plan introduces are not reserved. -/
theorem not_isReserved_of_plan (h : plan r live arities raw = .ok p) :
    ∀ name ∈ Plan.introduced p.head, r.lexicon.isReserved r.complex name = false := by
  obtain ⟨left, right, written, hsteps⟩ := Plan.steps_of_plan h
  have ha := Plan.assemble_eq_ok.mp hsteps.assembled
  have hreserved := ha.reserved
  rw [ha.sameHead]
  intro name hname
  unfold Plan.checkReserved at hreserved
  split at hreserved
  · simp at hreserved
  · rename_i hnone
    have := List.findSome?_eq_none_iff.mp hnone name hname
    unfold Naming.reservation? at this
    split at this
    · simp at this
    · rename_i hnot
      exact Bool.eq_false_iff.mpr hnot

/-- The head does not depend on the names in use. -/
theorem head_eq_of_plan (h : plan r live arities raw = .ok p)
    (h' : plan r live' arities' raw = .ok p') : p.head = p'.head := by
  obtain ⟨left, right, written, hsteps⟩ := Plan.steps_of_plan h
  obtain ⟨left', right', written', hsteps'⟩ := Plan.steps_of_plan h'
  obtain ⟨rfl, rfl⟩ := Prod.mk.inj (Except.ok.inj (hsteps.sides.symm.trans hsteps'.sides))
  obtain rfl := Except.ok.inj (hsteps.head.symm.trans hsteps'.head)
  rw [(Plan.of_assemble hsteps.assembled).1, (Plan.of_assemble hsteps'.assembled).1]

end Formulary
