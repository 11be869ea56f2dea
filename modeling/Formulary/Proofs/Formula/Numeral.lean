import Formulary.Number.Reading
import Formulary.Proofs.Binding.Planned
import Formulary.Proofs.Formula.Pieces
import Formulary.Proofs.Text.Run

/-! # Numerals as formulas

A formula has no exponents: its tokens give the digits of a numeral to numbers and
whatever else it holds to names and stray characters. The only letter a numeral may
hold is its exponent mark, so that mark is all that such a formula refers to.
-/

namespace Formulary

open Text (isDecimal isBlank)

variable {c : Char} {t : Text}

/-! ### What a numeral is written with -/

namespace Numeral

/-- The letters that start an exponent. -/
def isMark (c : Char) : Bool := c == 'e' || c == 'E'

/-- The exponent mark of a numeral. -/
def mark? (t : Text) : Option Char := List.find? isMark t

/-- The characters of a numeral that are no letters. -/
def isFigure (c : Char) : Bool := isBlank c || isDecimal c || c == '+' || c == '-' || c == '.'

theorem isFigure_of_isDecimal (h : isDecimal c = true) : isFigure c = true := by
  simp [isFigure, h]

theorem isFigure_of_isBlank (h : isBlank c = true) : isFigure c = true := by
  simp [isFigure, h]

/-- The digits of every script lie outside the blocks of the letters and the marks. -/
theorem isDecimal_ranges (h : isDecimal c = true) :
    (48 ≤ c.toNat ∧ c.toNat ≤ 57) ∨ 1632 ≤ c.toNat := by
  obtain ⟨v, hv⟩ := Option.isSome_iff_exists.mp h
  obtain ⟨z, hz, -⟩ := Option.map_eq_some_iff.mp hv
  have hin := List.find?_some hz
  have hzero : ∀ z ∈ Text.zeros, z = 48 ∨ 1632 ≤ z := by decide
  simp only [Bool.and_eq_true, decide_eq_true_eq] at hin
  rcases hzero z (List.mem_of_find?_eq_some hz) with rfl | hz
  · exact Or.inl (by omega)
  · exact Or.inr (by omega)

theorem not_isLetter_of_isFigure (h : isFigure c = true) : isLetter c = false := by
  rw [Bool.eq_false_iff]
  intro hl
  simp only [isFigure, Bool.or_eq_true, beq_iff_eq] at h
  rcases h with (((h | h) | rfl) | rfl) | rfl
  · simp [isBlank_of_isLetter hl] at h
  · have := isDecimal_ranges h
    have := toNat_of_isLetter hl
    omega
  all_goals exact absurd hl (by decide)

theorem isFigure_dropSign (h : ∀ c ∈ dropSign t, isFigure c = true) :
    ∀ c ∈ t, isFigure c = true := by
  unfold dropSign at h
  split at h
  · exact List.forall_mem_cons.mpr ⟨by decide, h⟩
  · exact List.forall_mem_cons.mpr ⟨by decide, h⟩
  · exact h

/-- A part of a numeral, which holds at most one exponent mark besides its figures. -/
def Written (t : Text) : Prop :=
  (∀ c ∈ t, isFigure c = true) ∨ ∃ u mark v, t = u ++ mark :: v ∧ isMark mark = true ∧
    (∀ c ∈ u, isFigure c = true) ∧ ∀ c ∈ v, isFigure c = true

theorem Written.append {u : Text} (h : Written t) (hu : ∀ c ∈ u, isFigure c = true) :
    Written (u ++ t) := by
  rcases h with h | ⟨a, mark, v, rfl, hmark, ha, hv⟩
  · exact Or.inl (List.forall_mem_append.mpr ⟨hu, h⟩)
  · exact Or.inr ⟨u ++ a, mark, v, by simp, hmark, List.forall_mem_append.mpr ⟨hu, ha⟩, hv⟩

theorem Written.concat {u : Text} (h : Written t) (hu : ∀ c ∈ u, isFigure c = true) :
    Written (t ++ u) := by
  rcases h with h | ⟨a, mark, v, rfl, hmark, ha, hv⟩
  · exact Or.inl (List.forall_mem_append.mpr ⟨h, hu⟩)
  · exact Or.inr ⟨a, mark, v ++ u, by simp, hmark, ha, List.forall_mem_append.mpr ⟨hv, hu⟩⟩

theorem written_of_isExponent (h : isExponent t = true) : Written t := by
  cases t with
  | nil => exact Or.inl (by simp)
  | cons mark v =>
    obtain ⟨hmark, hdigits⟩ := (Bool.and_eq_true _ _).mp h
    refine Or.inr ⟨[], mark, v, rfl, hmark, by simp, isFigure_dropSign fun c hc => ?_⟩
    obtain ⟨-, hall⟩ := (Bool.and_eq_true _ _).mp hdigits
    exact isFigure_of_isDecimal (List.all_eq_true.mp hall c hc)

theorem written_digits (t : Text) (h : Written (t.dropWhile isDecimal)) : Written t := by
  rw [← List.takeWhile_append_dropWhile (p := isDecimal) (l := t)]
  exact h.append fun c hc => isFigure_of_isDecimal (List.mem_takeWhile_imp hc)

theorem written_dropSign (h : Written (dropSign t)) : Written t := by
  unfold dropSign at h
  split at h
  · exact h.append (u := ['+']) (List.forall_mem_singleton.mpr (by decide +kernel))
  · exact h.append (u := ['-']) (List.forall_mem_singleton.mpr (by decide +kernel))
  · exact h

theorem written_of_matchesPattern (h : matchesPattern t = true) : Written t := by
  refine written_dropSign (written_digits _ ?_)
  unfold matchesPattern at h
  dsimp only at h
  split at h
  case h_1 rest hrest =>
    rw [hrest]
    have hexponent := ((Bool.and_eq_true _ _).mp h).2
    exact (written_digits rest (written_of_isExponent hexponent)).append (u := ['.'])
      (List.forall_mem_singleton.mpr (by decide +kernel))
  case h_2 => exact written_of_isExponent ((Bool.and_eq_true _ _).mp h).2

theorem written_of_isNumeral (h : isNumeral t = true) : Written t := by
  obtain ⟨before, behind, ht, hbefore, hbehind⟩ := Text.strip_split t
  rw [ht]
  refine Written.append (Written.concat (written_of_matchesPattern h) fun c hc => ?_) fun c hc => ?_
  · exact isFigure_of_isBlank (hbehind c hc)
  · exact isFigure_of_isBlank (hbefore c hc)

theorem filter_isLetter_of_figures (h : ∀ c ∈ t, isFigure c = true) : t.filter isLetter = [] :=
  List.filter_eq_nil_iff.mpr fun c hc => by simp [not_isLetter_of_isFigure (h c hc)]

theorem isLetter_of_isMark (h : isMark c = true) : isLetter c = true := by
  simp only [isMark, Bool.or_eq_true, beq_iff_eq] at h
  rcases h with rfl | rfl <;> decide

theorem mark?_of_figures (h : ∀ c ∈ t, isFigure c = true) : mark? t = none := by
  refine List.find?_eq_none.mpr fun c hc hm => ?_
  simpa [not_isLetter_of_isFigure (h c hc)] using isLetter_of_isMark hm

/-- A numeral has no letter but its exponent mark. -/
theorem letters_of_isNumeral (h : isNumeral t = true) :
    t.filter isLetter = (mark? t).toList := by
  rcases written_of_isNumeral h with h | ⟨u, mark, v, rfl, hmark, hu, hv⟩
  · rw [mark?_of_figures h, filter_isLetter_of_figures h]
    rfl
  · have hfirst : mark? (u ++ mark :: v) = some mark := by
      have hnone : List.find? isMark u = none := mark?_of_figures hu
      rw [mark?, List.find?_append, hnone, List.find?_cons_of_pos hmark]
      rfl
    rw [hfirst, List.filter_append, List.filter_cons_of_pos (isLetter_of_isMark hmark),
      filter_isLetter_of_figures hu, filter_isLetter_of_figures hv]
    rfl

/-- Nothing in a numeral opens an argument or a subscript, or marks a name. -/
theorem isPlain_of_isNumeral (h : isNumeral t = true) : ∀ c ∈ t, c ≠ '(' ∧ c ≠ '_' ∧ c ≠ '\'' := by
  have hplain : ∀ c, isFigure c = true ∨ isMark c = true → c ≠ '(' ∧ c ≠ '_' ∧ c ≠ '\'' := by
    rintro c hc
    refine ⟨?_, ?_, ?_⟩ <;>
      · rintro rfl
        exact absurd hc (by decide)
  intro c hc
  apply hplain
  rcases written_of_isNumeral h with h | ⟨u, mark, v, rfl, hmark, hu, hv⟩
  · exact Or.inl (h c hc)
  · rw [List.mem_append, List.mem_cons] at hc
    rcases hc with hc | rfl | hc
    · exact Or.inl (hu c hc)
    · exact Or.inr hmark
    · exact Or.inl (hv c hc)

end Numeral

/-! ### Formulas without brackets, subscripts and marks -/

namespace Formula

variable {lex : Lexicon} {complex : Bool} {bound functions : List Name} {arities : Arities}
  {known : Name → Bool} {k : TokenKind} {w after : Text} {ps : List Piece}

/-- A name without subscript and marks is one letter. -/
theorem Cut.letters (h : Cut k c w after) (hsub : '_' ∉ c :: w) (hmark : '\'' ∉ c :: w) :
    (k = .atom ∧ w = [] ∧ isLetter c = true) ∨
      (k ≠ .atom ∧ k ≠ .func ∧ (c :: w).filter isLetter = []) := by
  cases h with
  | subscripted => simp [Symbol.subscriptText] at hsub
  | letter n hc =>
    cases n with
    | zero => exact Or.inl ⟨rfl, rfl, hc⟩
    | succ n => simp [List.replicate_succ] at hmark
  | space hc hw =>
    refine Or.inr ⟨by simp, by simp, List.filter_eq_nil_iff.mpr fun e he hl => ?_⟩
    have hblank : Text.isBlank e = true := by
      rcases List.mem_cons.mp he with rfl | he
      · exact hc
      · exact hw e he
    simp [isBlank_of_isLetter hl] at hblank
  | number hc hw =>
    have hstart := (Cut.number hc hw).starts
    refine Or.inr ⟨by simp, by simp, List.filter_eq_nil_iff.mpr fun e he hl => ?_⟩
    have hfigure : Text.isAsciiDigit e = true ∨ e = '.' := by
      rcases List.mem_cons.mp he with rfl | he
      · exact hstart
      · exact takeNumber_chars (c = '.') (w ++ after) e (by rwa [hw])
    rcases hfigure with hd | rfl
    · simp [isAsciiDigit_of_isLetter hl] at hd
    · exact absurd hl (by decide)
  | opening hc => exact Or.inr ⟨by simp, by simp, by simp [(isBlank_of_bracket (Or.inl hc)).2.2]⟩
  | closing hc => exact Or.inr ⟨by simp, by simp, by simp [(isBlank_of_bracket (Or.inr hc)).2.2]⟩
  | other hc => exact Or.inr ⟨by simp, by simp, by simp [hc.letter]⟩

/-- Without brackets, subscripts and marks every letter is a name and nothing is a call. -/
theorem Reads.letters (h : Reads known ps)
    (hplain : ∀ c ∈ written ps, c ≠ '(' ∧ c ≠ '_' ∧ c ≠ '\'') :
    (∀ p ∈ ps, p.1 ≠ .func) ∧ (ps.filter fun p => p.1 = .atom).map Prod.snd =
      ((written ps).filter isLetter).map fun c => [c] := by
  induction h with
  | nil => simp
  | @call name ps hname hk hl hps ih =>
    -- a call needs a bracket behind its name
    obtain ⟨u, hu⟩ := List.head?_eq_some_iff.mp hl
    have hmem : '(' ∈ (written ps).dropWhile isGap := by simp [hu]
    exact absurd rfl (hplain '(' (by simp [(List.dropWhile_sublist _).subset hmem])).1
  | @plain k c w ps hcut hps ih =>
    rw [written_cons, List.forall_mem_append] at hplain
    obtain ⟨hcalls, hnames⟩ := ih hplain.2
    have hsub : '_' ∉ c :: w := fun hin => (hplain.1 _ hin).2.1 rfl
    have hmark : '\'' ∉ c :: w := fun hin => (hplain.1 _ hin).2.2 rfl
    rcases hcut.letters hsub hmark with ⟨rfl, rfl, hc⟩ | ⟨hatom, hfunc, hnone⟩
    · exact ⟨List.forall_mem_cons.mpr ⟨by simp, hcalls⟩, by simp [hc, hnames]⟩
    · refine ⟨List.forall_mem_cons.mpr ⟨hfunc, hcalls⟩, ?_⟩
      rw [written_cons, List.filter_append, hnone, List.nil_append, ← hnames,
        List.filter_cons_of_neg (by simpa using hatom)]
  | tail => exact absurd rfl (hplain '_' (by simp)).2.1

theorem filter_lay (i : Nat) (k : TokenKind) (ps : List Piece) :
    ((lay i ps).filter fun q => q.kind = k).map Token.text =
      (ps.filter fun p => p.1 = k).map Prod.snd := by
  induction ps generalizing i with
  | nil => rfl
  | cons p ps ih =>
    by_cases hp : p.1 = k <;> simp [lay, hp, ih]

/-- A numeral calls nothing, and its one name is its exponent mark. -/
theorem tokens_of_isNumeral (h : Numeral.isNumeral t = true) :
    (∀ q ∈ tokens lex functions t, q.kind ≠ .func) ∧
      ((tokens lex functions t).filter fun q => q.kind = .atom).map Token.text =
        (Numeral.mark? t).toList.map fun c => [c] := by
  obtain ⟨ps, hps, rfl, htokens⟩ := reads_tokens lex functions t
  obtain ⟨hcalls, hnames⟩ := hps.letters (Numeral.isPlain_of_isNumeral h)
  rw [htokens, filter_lay, hnames, Numeral.letters_of_isNumeral h]
  refine ⟨fun q hq => ?_, rfl⟩
  exact hcalls (q.kind, q.text) (mem_of_mem_lay hq)

theorem calls_of_isNumeral (h : Numeral.isNumeral t = true) : calls lex arities t = [] := by
  refine List.filterMap_eq_nil_iff.mpr fun q hq => ?_
  simp [callOf?, (tokens_of_isNumeral h).1 q hq]

/-- A numeral refers to its exponent mark, unless that letter is bound or a constant. -/
theorem freeSymbols_of_isNumeral (h : Numeral.isNumeral t = true) :
    freeSymbols lex complex bound functions t =
      ((Numeral.mark? t).toList.map fun c => [c]).filter
        fun a => !bound.contains a && !lex.isConstant complex a := by
  rw [freeSymbols, (tokens_of_isNumeral h).2]
  cases Numeral.mark? t with
  | none => rfl
  | some c =>
    rw [Option.toList_some, List.map_singleton, List.filter_singleton]
    cases !bound.contains [c] && !lex.isConstant complex [c] <;> rfl

end Formula

end Formulary
