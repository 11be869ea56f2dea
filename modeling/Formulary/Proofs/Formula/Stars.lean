import Formulary.Lexicon.Builtin
import Formulary.Proofs.Formula.WrittenOut

/-! # What writing products out does to the tokens

Blanks aside, the tokens afterwards are those before with a token `*` between every
two operands that stood side by side. So nothing else is taken for something else:
calls and names stay what they were, and a second time nothing is put in.
-/

namespace Formulary.Formula

variable {known : Name → Bool} {left : Option TokenKind} {blanks : Text} {kind : TokenKind}
  {ks : List Token} {ps : List Piece}

/-- The pieces of tokens that are not blank. -/
def significant (ks : List Token) : List Piece :=
  (ks.filter fun k => k.kind ≠ .space).map fun k => (k.kind, k.text)

/-- A piece `*` if the first piece can end and the second can start an operand. -/
def star (p q : Piece) : List Piece :=
  if p.1 ∈ [TokenKind.number, .atom, .closing] ∧ q.1 ∈ [TokenKind.number, .atom, .func, .opening]
  then [(.other, ['*'])]
  else []

/-- The pieces with `*` between neighbours that are operands. -/
def starred : List Piece → List Piece
  | p :: q :: ps => p :: (star p q ++ starred (q :: ps))
  | ps => ps

theorem starred_cons_cons (p q : Piece) :
    starred (p :: q :: ps) = p :: (star p q ++ starred (q :: ps)) := rfl

theorem star_eq (p q : Piece) :
    star p q = if multiplies p.1 q.1 then [(.other, ['*'])] else [] := by
  obtain ⟨k, u⟩ := p
  obtain ⟨l, v⟩ := q
  cases k <;> cases l <;> rfl

/-! ### Blanks left out -/

/-- The pieces that are not blank. -/
def solid (ps : List Piece) : List Piece := ps.filter fun p => p.1 ≠ .space

theorem significant_lay (i : Nat) : significant (lay i ps) = solid ps :=
  calc significant (lay i ps)
      = solid ((lay i ps).map fun k => (k.kind, k.text)) := by
        rw [solid, List.filter_map]
        rfl
    _ = solid ps := by rw [map_lay]

theorem solid_gap : solid (gap blanks) = [] := by
  unfold gap
  split <;> rfl

theorem solid_append (ps qs : List Piece) : solid (ps ++ qs) = solid ps ++ solid qs :=
  List.filter_append ps qs

theorem solid_cons_of_space {p : Piece} (hp : p.1 = .space) : solid (p :: ps) = solid ps :=
  List.filter_cons_of_neg (by simp [hp])

theorem solid_cons {p : Piece} (hp : p.1 ≠ .space) : solid (p :: ps) = p :: solid ps :=
  List.filter_cons_of_pos (by simp [hp])

theorem solid_between : solid (between left blanks kind) =
    if left.any (multiplies · kind) then [(.other, ['*'])] else [] := by
  unfold between
  split
  · rfl
  · exact solid_gap

/-- The pieces with `*` between operands, after a piece of kind `left`. -/
def starredAfter (left : Option TokenKind) : List Piece → List Piece
  | [] => []
  | p :: ps =>
    (if left.any (multiplies · p.1) then [(.other, ['*'])] else []) ++
      p :: starredAfter (some p.1) ps

theorem solid_spread : solid (spread left blanks ps) = starredAfter left (solid ps) := by
  induction ps generalizing left blanks with
  | nil => exact solid_gap
  | cons p ps ih =>
    by_cases hp : p.1 = .space
    · rw [spread, if_pos hp, solid_cons_of_space hp]
      exact ih
    · rw [spread_cons hp, solid_append, solid_between, solid_cons hp, solid_cons hp, ih]
      rfl

theorem starredAfter_some (p : Piece) : p :: starredAfter (some p.1) ps = starred (p :: ps) := by
  induction ps generalizing p with
  | nil => rfl
  | cons q ps ih =>
    rw [starred_cons_cons, star_eq, ← ih q]
    rfl

theorem starredAfter_none : starredAfter none ps = starred ps := by
  cases ps with
  | nil => rfl
  | cons p ps => exact starredAfter_some p

/-! ### Names -/

/-- The texts of the pieces of a kind. -/
def textsOf (kind : TokenKind) (ps : List Piece) : List Text :=
  (ps.filter fun p => p.1 = kind).map (·.2)

theorem textsOf_append (qs : List Piece) :
    textsOf kind (ps ++ qs) = textsOf kind ps ++ textsOf kind qs := by
  simp [textsOf]

theorem textsOf_cons (p : Piece) :
    textsOf kind (p :: ps) = (if p.1 = kind then [p.2] else []) ++ textsOf kind ps := by
  by_cases hp : p.1 = kind <;> simp [textsOf, hp]

theorem textsOf_star (p q : Piece) (hkind : kind ≠ .other) : textsOf kind (star p q) = [] := by
  unfold star
  split
  · simp [textsOf, Ne.symm hkind]
  · rfl

/-- No piece but `*` comes in. -/
theorem textsOf_starred (hkind : kind ≠ .other) : textsOf kind (starred ps) = textsOf kind ps := by
  induction ps with
  | nil => rfl
  | cons p ps ih =>
    cases ps with
    | nil => rfl
    | cons q ps =>
      rw [starred_cons_cons, textsOf_cons, textsOf_append, textsOf_star p q hkind,
        List.nil_append, ih,
        textsOf_cons p]

theorem textsOf_significant (hkind : kind ≠ .space) :
    textsOf kind (significant ks) = (ks.filter fun k => k.kind = kind).map Token.text := by
  induction ks with
  | nil => rfl
  | cons k ks ih =>
    unfold significant at ih ⊢
    by_cases hspace : k.kind = .space
    · simpa [hspace, Ne.symm hkind] using ih
    · rw [List.filter_cons_of_pos (by simpa using hspace), List.map_cons, textsOf_cons, ih]
      by_cases hk : k.kind = kind <;> simp [hk]

/-! ### The main result -/

/-- Writing products out puts `*` between neighbouring operands and does nothing else to the tokens
that are no blanks. So it is done once and for all, and calls, names and free symbols stay. -/
theorem withProducts_stars (lex : Lexicon) (functions : List Name) (t : Text) :
    let w := withProducts lex functions t
    significant (tokens lex functions w) = starred (significant (tokens lex functions t)) ∧
    withProducts lex functions w = w ∧
    calledNames lex functions w = calledNames lex functions t ∧
    textsOf .atom (significant (tokens lex functions w)) =
      textsOf .atom (significant (tokens lex functions t)) ∧
    ∀ complex bound, freeSymbols lex complex bound functions w =
      freeSymbols lex complex bound functions t := by
  intro w
  have hpieces : significant (tokens lex functions w) =
      starred (significant (tokens lex functions t)) := by
    obtain ⟨ps, hps, -, htokens⟩ := reads_tokens lex functions t
    have hw : w = written (spread none [] ps) := by
      rw [← writeProducts_lay 0, ← htokens]
      rfl
    rw [hw, tokens_written (hps.spread waits_nil) apart_spread.2, htokens, significant_lay,
      significant_lay, solid_spread, starredAfter_none]
  have hatoms : textsOf .atom (significant (tokens lex functions w)) =
      textsOf .atom (significant (tokens lex functions t)) := by
    rw [hpieces, textsOf_starred (by decide)]
  refine ⟨hpieces, (writtenOut_withProducts lex functions t).withProducts, ?_, hatoms, ?_⟩
  · unfold calledNames
    rw [← textsOf_significant (by decide), ← textsOf_significant (by decide), hpieces,
      textsOf_starred (by decide)]
  · intro complex bound
    rw [textsOf_significant (by decide), textsOf_significant (by decide)] at hatoms
    unfold freeSymbols
    rw [hatoms]

-- A call stays a call, a subscript stays as it is, and the blank gives way.
example : withProducts Lexicon.builtin [] (text "2 sin(x)k_{a b}") =
    text "2*sin(x)*k_{a b}" := by decide +kernel

end Formulary.Formula
