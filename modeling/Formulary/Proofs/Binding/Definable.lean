import Formulary.Proofs.Binding.Planned

/-! # Names that can be defined

A formula mentions names as heads define them, but for one thing: between the braces
of a subscript it may have nothing or blanks, which no head may. So a name that a plan
misses is read as a head of that name, or it is hollow and is refused.
-/

namespace Formulary

variable {r : Reading} {live : LiveNames} {arities : Formula.Arities} {raw : Text} {p : Plan}
  {lex : Lexicon} {name : Name} {content rest : Text}

/-- Has the name a subscript in which nothing stands? -/
def isHollow : Name → Bool
  | _ :: '_' :: '\x7b' :: body =>
    ((Text.cut? '\x7d' body).map fun p => Text.isBlankText p.1).getD false
  | _ => false

theorem isHollow_subscripted (letter : Char) (hbrace : '\x7d' ∉ content) :
    isHollow (letter :: (Symbol.subscriptText content ++ rest)) = Text.isBlankText content := by
  rw [Head.subscriptText_append, isHollow, Text.cut?_append hbrace]
  rfl

theorem isHollow_marked (letter : Char) (n : Nat) :
    isHollow (letter :: Formula.marks n) = false := by
  cases n with
  | zero => rfl
  | succ n => simp [isHollow, List.replicate_succ]

namespace Head

/-- How a head is read that consists of a name alone. -/
def ReadsAlone (lex : Lexicon) (name : Name) : Prop :=
  if isHollow name then parse lex name = .error (.emptySubscript 1)
  else ∃ head, parse lex name = .ok head ∧ head.name = name ∧ head.formals = []

/-- The name of a symbol is read as itself. -/
theorem readsAlone_of_proper {s : Symbol} (hs : s.Proper) (hfull : isHollow s.name = false) :
    ReadsAlone lex s.name := by
  rw [ReadsAlone, if_neg (by simp [hfull])]
  refine ⟨_, parse_name lex hs, ?_⟩
  split
  case isTrue hplot => exact ⟨hplot.symm, rfl⟩
  case isFalse => exact ⟨rfl, rfl⟩

/-- A hollow name is refused where its subscript starts. -/
theorem readsAlone_of_hollow {letter : Char} (hletter : isLetter letter = true)
    (hblank : Text.isBlankText content = true) (hbrace : '\x7d' ∉ content) :
    ReadsAlone lex (letter :: (Symbol.subscriptText content ++ rest)) := by
  rw [ReadsAlone, if_pos ((isHollow_subscripted letter hbrace).trans hblank)]
  unfold parse tokens
  rw [tokensFrom_char (isBlank_of_isLetter hletter) (ne_of_isLetter hletter (by decide)),
    tokensFrom_subscript hbrace, if_pos hblank]
  rfl

theorem readsAlone_of_letter {letter : Char} (hletter : isLetter letter = true) (n : Nat) :
    ReadsAlone lex (letter :: Formula.marks n) :=
  readsAlone_of_proper (s := ⟨letter, none, n⟩) ⟨hletter, by simp⟩ (isHollow_marked letter n)

end Head

namespace Formula

open Head (ReadsAlone)

theorem Cut.readsAlone {c : Char} {w after : Text} (h : Cut .atom c w after) :
    ReadsAlone lex (c :: w) := by
  cases h with
  | @subscripted _ content _ n hc hbrace =>
    by_cases hblank : Text.isBlankText content = true
    · exact Head.readsAlone_of_hollow hc hblank hbrace
    · have hfull : Text.isBlankText content = false := by simpa using hblank
      apply Head.readsAlone_of_proper (s := ⟨c, some content, n⟩)
      · exact ⟨hc, by simp [hfull, hbrace]⟩
      · exact (isHollow_subscripted c hbrace).trans hfull
  | letter n hc => exact Head.readsAlone_of_letter hc n

/-- An atom is read as a head, or it is hollow. -/
theorem Reads.readsAlone {known : Name → Bool} {ps : List Piece} (h : Reads known ps)
    (ht : (TokenKind.atom, name) ∈ ps) : ReadsAlone lex name := by
  induction h with
  | nil => simp at ht
  | call _ _ _ _ ih => exact ih (by simpa using ht)
  | plain hcut _ ih =>
    rcases List.mem_cons.mp ht with he | ht
    · obtain ⟨rfl, rfl⟩ := Prod.mk.inj he
      exact hcut.readsAlone
    · exact ih ht
  | @tail c _ hc _ =>
    obtain rfl : name = [c] := by simpa using ht
    exact Head.readsAlone_of_letter hc 0

end Formula

/-- A name that a plan misses is read as a bare head of this name, but for a hollow one, which is
refused. -/
theorem parse_of_mem_missing (lex : Lexicon) (h : plan r live arities raw = .ok p)
    (hname : name ∈ p.missing) :
    if isHollow name then Head.parse lex name = .error (.emptySubscript 1)
    else ∃ head, Head.parse lex name = .ok head ∧ head.name = name ∧ head.formals = [] := by
  have hp := planned_of_plan h
  rw [hp.missing] at hname
  have hdependency := List.mem_of_mem_filter hname
  rw [hp.dependencies] at hdependency
  obtain ⟨ps, hps, hatom⟩ := Formula.exists_atom_of_mem_freeSymbols hdependency
  exact hps.readsAlone hatom

/-- A formula that mentions a name of each sort. -/
theorem parse_of_mem_missing_for_subscripts :
    let p : Plan := ⟨.function ⟨'f', none, 0⟩ [], text "k_{a}'*x_{ }",
      [text "k_{a}'", text "x_{ }"], [text "k_{a}'", text "x_{ }"], [], [], none⟩
    plan {} [] [] (text "f = k_{a}'x_{ }") = .ok p ∧ p.missing = [text "k_{a}'", text "x_{ }"] ∧
      (∃ head, Head.parse Lexicon.builtin (text "k_{a}'") = .ok head ∧
        head.name = text "k_{a}'" ∧ head.formals = []) ∧
      Head.parse Lexicon.builtin (text "x_{ }") = .error (.emptySubscript 1) := by
  intro p
  have hplan : plan {} [] [] (text "f = k_{a}'x_{ }") = .ok p := by decide +kernel
  have hmarked : text "k_{a}'" ∈ p.missing := List.mem_cons_self
  have hblank : text "x_{ }" ∈ p.missing := List.mem_cons_of_mem _ List.mem_cons_self
  exact ⟨hplan, rfl, parse_of_mem_missing Lexicon.builtin hplan hmarked,
    parse_of_mem_missing Lexicon.builtin hplan hblank⟩

/-- A name with an empty subscript is missing here, and is no name that can be defined. -/
theorem plan_misses_hollow :
    (plan {} [] [] (text "f = x_{}")).map Plan.missing = .ok [text "x_{}"] ∧
      Head.parse Lexicon.builtin (text "x_{}") = .error (.emptySubscript 1) := by
  decide +kernel

end Formulary
