import Formulary.Proofs.Formula.Balance
import Formulary.Proofs.Head.Name
import Formulary.Proofs.Lexicon.Parts

/-! # Words in formulas

The tokens of a formula cut its runs of letters into names of one letter, which are no
words, and names of calls, which are whole runs. So a formula without words has none
when its products are written out either.
-/

namespace Formulary

open Text (Stops)
open Lexicon (Severed depthAfter wordFree_append_iff)

variable {lex : Lexicon} {d : Nat} {c : Char}

/-- The braces that are open are those on the stack. -/
theorem Lexicon.depthAfter_openAfter? {t : Text} {stack stack' : List Char}
    (h : Bracket.openAfter? stack t = some stack') :
    depthAfter (stack.count '\x7b') t = stack'.count '\x7b' := by
  fun_induction Bracket.openAfter? stack t with
  | case1 =>
    obtain rfl := Option.some.inj h
    rfl
  | case2 stack c rest hc ih =>
    rw [depthAfter_cons, ← ih h, List.count_cons]
    simp only [Bracket.isOpening, Bool.or_eq_true, beq_iff_eq] at hc
    rcases hc with (rfl | rfl) | rfl <;> rfl
  | case3 => simp at h
  | case4 c rest hc hclose o outer hfits ih =>
    rw [depthAfter_cons, ← ih h, List.count_cons]
    have hpair : o = '(' ∧ c = ')' ∨ o = '[' ∧ c = ']' ∨ o = '\x7b' ∧ c = '\x7d' := by
      have hpartner := beq_iff_eq.mp hfits
      unfold Bracket.closing? at hpartner
      split at hpartner <;> cases hpartner <;> simp
    rcases hpair with ⟨rfl, rfl⟩ | ⟨rfl, rfl⟩ | ⟨rfl, rfl⟩ <;> simp [Lexicon.deeper]
  | case5 => simp at h
  | case6 stack c rest hc hclose ih =>
    have hne : c ≠ '\x7b' ∧ c ≠ '\x7d' := by
      simp_all [Bracket.isOpening, Bracket.isClosing]
    rw [depthAfter_cons, Lexicon.deeper, if_neg hne.1, if_neg hne.2, ih h]

theorem Lexicon.depthAfter_of_isBalanced {t : Text} (h : Bracket.isBalanced t = true) :
    depthAfter 0 t = 0 :=
  depthAfter_openAfter? (Bracket.isBalanced_iff.mp h)

/-- A name holds no word but in its subscript, where it stays. -/
theorem Symbol.wordFree (h : lex.Regular) {s : Symbol} (hletter : isLetter s.letter = true)
    (hsubscript : ∀ content ∈ s.subscript, '\x7d' ∉ content) : lex.WordFree d false s.name := by
  have hmark : ∀ c ∈ List.replicate s.primes '\'', isLatin c = false := by
    intro c hc
    obtain rfl := List.eq_of_mem_replicate hc
    decide
  rw [Symbol.name]
  cases hs : s.subscript with
  | none =>
    have hstop : Stops isLatin (List.replicate s.primes '\'') := fun c hc =>
      hmark c (List.mem_of_mem_head? hc)
    exact h.wordFree_letter hletter hstop (Lexicon.wordFree_of_not_latin hmark)
  | some content =>
    have hlast : ∀ c ∈ '\x7d' :: List.replicate s.primes '\'', isLatin c = false :=
      List.forall_mem_cons.mpr ⟨by decide, hmark⟩
    refine h.wordFree_letter hletter (by simp [Stops, Symbol.subscriptText, isLatin]) ?_
    have hbraces : (some content).map Symbol.subscriptText = some (Symbol.subscriptText content) :=
      rfl
    rw [hbraces, Option.getD_some, Symbol.subscriptText, List.append_assoc, List.cons_append,
      List.cons_append]
    refine .char (by decide) (.char (by decide) ?_)
    exact Lexicon.wordFree_of_inside (Nat.succ_pos d) (hsubscript content hs) hlast

namespace Formula

variable {known : Name → Bool} {left : Option TokenKind} {blanks w after : Text} {k : TokenKind}
  {ps : List Piece}

/-! ### Pieces -/

/-- Only a name has letters in a token that is no call. -/
theorem Cut.not_latin (h : Cut k c w after) (hk : k ≠ .atom) : ∀ e ∈ c :: w, isLatin e = false := by
  have hletter : ∀ {e : Char}, isLetter e = false → isLatin e = false := by
    intro e he
    exact ((Bool.or_eq_false_iff).mp he).1
  have hnumber : ∀ {e : Char}, Text.isAsciiDigit e = true ∨ e = '.' → isLatin e = false := by
    rintro e (he | rfl)
    · exact hletter (Bool.eq_false_iff.mpr fun hl => by simp [isAsciiDigit_of_isLetter hl] at he)
    · decide
  cases h with
  | space hc hw =>
    exact List.forall_mem_cons.mpr
      ⟨isLatin_of_isBlank hc, fun e he => isLatin_of_isBlank (hw e he)⟩
  | number hc hw =>
    refine List.forall_mem_cons.mpr ⟨hnumber (Cut.number hc hw).starts, fun e he => ?_⟩
    have hmem : e ∈ (takeNumber (c = '.') (w ++ after)).1 := by rwa [hw]
    exact hnumber (takeNumber_chars _ _ e hmem)
  | opening hc => exact List.forall_mem_singleton.mpr (hletter (isBlank_of_bracket (Or.inl hc)).2.2)
  | closing hc => exact List.forall_mem_singleton.mpr (hletter (isBlank_of_bracket (Or.inr hc)).2.2)
  | other hc => exact List.forall_mem_singleton.mpr (hletter hc.letter)
  | _ => exact absurd rfl hk

theorem Cut.wordFree (h : Cut k c w after) (hlex : lex.Regular) :
    lex.WordFree d false (c :: w) := by
  by_cases hk : k = .atom
  · subst hk
    cases h with
    | @subscripted _ content _ n hc hcontent =>
      exact Symbol.wordFree (s := ⟨c, some content, n⟩) hlex hc (by simpa using hcontent)
    | letter n hc => exact Symbol.wordFree (s := ⟨c, none, n⟩) hlex hc (by simp)
  · exact Lexicon.wordFree_of_not_latin (h.not_latin hk)

/-- A call that is no run of letters and digits is a name with a subscript or marks. -/
theorem CallName.wordFree_or_run {rest : Text} {name : Name} (h : CallName rest name)
    (hlex : lex.Regular) : (∀ d, lex.WordFree d false name) ∨
      ∀ c ∈ rest.takeWhile isNameChar, Text.isAsciiDigit c = true := by
  cases h with
  | @subscripted letter content n hletter hcontent =>
    exact Or.inl fun d => Symbol.wordFree (s := ⟨letter, some content, n⟩) hlex hletter
      (by simpa using hcontent)
  | @marked letter n hletter =>
    exact Or.inl fun d => Symbol.wordFree (s := ⟨letter, none, n + 1⟩) hlex hletter (by simp)
  | run _ _ hrest => exact Or.inr hrest

/-- Behind the digits of a number a run of letters begins. -/
theorem severed_of_digits {u v : Text}
    (h : ∀ c ∈ u.reverse.takeWhile isNameChar, Text.isAsciiDigit c = true) : Severed u v := by
  intro c hc hlatin
  have hletter : isLetter c = true := by simp [isLetter, hlatin]
  obtain ⟨t, ht⟩ := List.head?_eq_some_iff.mp ((List.head?_reverse).trans hc)
  rw [ht, List.takeWhile_cons_of_pos (isNameChar_of_isLetter hletter)] at h
  have hdigit := h c List.mem_cons_self
  simp [isAsciiDigit_of_isLetter hletter] at hdigit

/-! ### Calls -/

/-- Behind the braces open before it, every call is without words. -/
def Framed (lex : Lexicon) (d : Nat) : List Piece → Prop
  | [] => True
  | p :: ps => (p.1 = .func → lex.WordFree d false p.2) ∧ Framed lex (depthAfter d p.2) ps

theorem not_isNameChar_of_stops {t : Text} (h : Stops isNameChar t) : Stops isLatin t := by
  intro c hc
  have hn := h c hc
  rw [Bool.eq_false_iff] at hn ⊢
  exact fun hl => hn (isNameChar_of_isLetter (by simp [isLetter, hl]))

/-- The calls of a text without words are. -/
theorem Reads.framed (hlex : lex.Regular) (hps : Reads known ps) {u : Text}
    (hcalled : Called u.reverse ps) (hslash : '\\' ∉ u ++ written ps)
    (hfree : lex.WordFree 0 false (u ++ written ps)) : Framed lex (depthAfter 0 u) ps := by
  induction hps generalizing u with
  | nil => trivial
  | @call name ps hname hk hl hps ih =>
    rw [written_cons] at hfree hslash
    refine ⟨fun _ => ?_, ?_⟩
    · have hslash' := List.mem_append.not.mp hslash
      rw [not_or, List.mem_append, not_or] at hslash'
      rcases (hcalled.1 rfl).wordFree_or_run hlex with hname | hdigits
      · exact hname _
      · have hcall := ((wordFree_append_iff hslash'.1 (severed_of_digits hdigits)).mp hfree).2
        have hstop : Stops isLatin (written ps) :=
          not_isNameChar_of_stops (hl.stops fun _ => isNameChar_of_gap)
        exact ((wordFree_append_iff hslash'.2.1 (Lexicon.severed_of_stops hstop)).mp hcall).1
    · rw [← Lexicon.depthAfter_append]
      rw [← List.append_assoc] at hfree hslash
      exact ih (by simpa [Called] using hcalled.2) hslash hfree
  | @plain k c w ps hcut hps ih =>
    rw [written_cons, ← List.append_assoc] at hfree hslash
    refine ⟨?_, ?_⟩
    · rintro rfl
      cases hcut
    · rw [← Lexicon.depthAfter_append]
      exact ih (by simpa using hcalled.2) hslash hfree
  | tail => simp [Framed]

/-! ### Products written out -/

theorem mem_between (hb : ∀ b ∈ blanks, Text.isBlank b = true) :
    ∀ c ∈ written (between left blanks k), (c == '*' || Text.isBlank c) = true := by
  unfold between
  split
  · simp
  · rw [written_gap]
    exact fun c hc => by simp [hb c hc]

theorem mem_spread : ∀ c ∈ written (spread left blanks ps), c = '*' ∨ c ∈ blanks ++ written ps := by
  induction ps generalizing left blanks with
  | nil =>
    rw [spread, written_gap]
    exact fun c hc => Or.inr (by simpa using hc)
  | cons p ps ih =>
    intro c hc
    by_cases hp : p.1 = .space
    · rw [spread, if_pos hp] at hc
      exact (ih c hc).imp_right fun hc => by simpa using Or.inr hc
    · rw [spread_cons hp, written_append, written_cons, between] at hc
      rcases List.mem_append.mp hc with hc | hc
      · split at hc
        · exact Or.inl (by simpa using hc)
        · rw [written_gap] at hc
          exact Or.inr (List.mem_append_left _ hc)
      · rcases List.mem_append.mp hc with hc | hc
        · exact Or.inr (by simp [hc])
        · exact (ih c hc).imp_right fun hc => by simp_all

theorem Reads.written_ne_nil {p : Piece} (h : Reads known (p :: ps)) : written (p :: ps) ≠ [] := by
  obtain ⟨c, w, hw, -⟩ := h.starts
  simp [hw]

/-- What a formula ends with, it ends with when products are written out. -/
theorem Reads.getLast?_spread (hps : Reads known ps) (hc : Text.isBlank c = false)
    (h : (written ps).getLast? = some c) :
    (written (Formula.spread left blanks ps)).getLast? = some c := by
  have hstep : ∀ {p : Piece} {ps : List Piece} {left : Option TokenKind} {blanks : Text},
      p.1 ≠ .space → ps = [] ∨ written ps ≠ [] → (written (p :: ps)).getLast? = some c →
      ((written ps).getLast? = some c →
        (written (Formula.spread (some p.1) [] ps)).getLast? = some c) →
      (written (Formula.spread left blanks (p :: ps))).getLast? = some c := by
    intro p ps left blanks hp hne h hrest
    rw [spread_cons hp, written_append, written_cons]
    rw [written_cons] at h
    rcases hne with rfl | hne
    · simp_all [Formula.spread, gap]
    · obtain ⟨e, he⟩ := Option.isSome_iff_exists.mp (List.getLast?_isSome.mpr hne)
      have hlast : (written ps).getLast? = some c := by simpa [List.getLast?_append, he] using h
      simp [List.getLast?_append, hrest hlast]
  have hrest : ∀ {ps : List Piece}, Reads known ps → ps = [] ∨ written ps ≠ [] := by
    intro ps hps
    cases ps with
    | nil => exact Or.inl rfl
    | cons p ps => exact Or.inr hps.written_ne_nil
  induction hps generalizing left blanks with
  | nil => simp at h
  | call _ _ _ hps ih => exact hstep (by simp) (hrest hps) h ih
  | @plain k e w ps hcut hps ih =>
    by_cases hk : k = .space
    · subst hk
      obtain ⟨hw, -, -⟩ := (Reads.plain hcut hps).space
      rw [Formula.spread, if_pos rfl]
      refine ih ?_
      rcases hrest hps with rfl | hne
      · have hmem : c ∈ e :: w := List.mem_of_mem_getLast? (by simpa using h)
        simp [hw c hmem] at hc
      · obtain ⟨e', he'⟩ := Option.isSome_iff_exists.mp (List.getLast?_isSome.mpr hne)
        have hlast : (e :: w ++ written ps).getLast? = some c := h
        rw [List.getLast?_append, he'] at hlast
        rwa [he']
    · exact hstep hk (hrest hps) h ih
  | tail =>
    refine hstep (by simp) (Or.inr (by simp)) h fun h => ?_
    rwa [spread_stray]

/-- A formula without words has none when products are written out. -/
theorem Reads.wordFree_spread (hlex : lex.Regular) (hps : Reads known ps)
    (hb : ∀ b ∈ blanks, Text.isBlank b = true) (hslash : '\\' ∉ written ps)
    (hframed : Framed lex d ps) :
    lex.WordFree d false (written (Formula.spread left blanks ps)) := by
  have hnone : ∀ b ∈ ([] : Text), Text.isBlank b = true := by simp
  have hstep : ∀ {p : Piece} {ps : List Piece} {left : Option TokenKind} {blanks : Text} {d : Nat},
      p.1 ≠ .space → (∀ b ∈ blanks, Text.isBlank b = true) → '\\' ∉ p.2 →
      lex.WordFree d false p.2 → Severed p.2 (written (Formula.spread (some p.1) [] ps)) →
      lex.WordFree (depthAfter d p.2) false (written (Formula.spread (some p.1) [] ps)) →
      lex.WordFree d false (written (Formula.spread left blanks (p :: ps))) := by
    intro p ps left blanks d hp hb hslash hword hsevered hrest
    have hbetween : ∀ e ∈ written (Formula.between left blanks p.1),
        (e == '*' || Text.isBlank e) = true := mem_between hb
    have hnot : ∀ e, (e == '*' || Text.isBlank e) = false →
        e ∉ written (Formula.between left blanks p.1) := by
      intro e he hin
      simp [hbetween e hin] at he
    have hlatin : ∀ e ∈ written (Formula.between left blanks p.1), isLatin e = false := by
      intro e he
      rcases (Bool.or_eq_true _ _).mp (hbetween e he) with hstar | hblank
      · rw [beq_iff_eq.mp hstar]
        decide
      · exact isLatin_of_isBlank hblank
    rw [spread_cons hp, written_append, written_cons,
      wordFree_append_iff (hnot _ (by decide)) (Lexicon.severed_of_last hlatin),
      Lexicon.depthAfter_of_class (by decide) (by decide) hbetween,
      wordFree_append_iff hslash hsevered]
    exact ⟨Lexicon.wordFree_of_not_latin hlatin, hword, hrest⟩
  induction hps generalizing left blanks d with
  | nil =>
    rw [Formula.spread, written_gap]
    exact Lexicon.wordFree_of_not_latin fun e he => isLatin_of_isBlank (hb e he)
  | @call name ps hname hk hl hps ih =>
    rw [written_cons, List.mem_append, not_or] at hslash
    have hstop : Stops isLatin (written (Formula.spread (some .func) [] ps)) :=
      not_isNameChar_of_stops ((leads_spread hps waits_nil hl).stops fun _ => isNameChar_of_gap)
    exact hstep (by simp) hb hslash.1 (hframed.1 rfl) (Lexicon.severed_of_stops hstop)
      (ih hnone hslash.2 hframed.2)
  | @plain k c w ps hcut hps ih =>
    rw [written_cons, List.mem_append, not_or] at hslash
    by_cases hk : k = .space
    · subst hk
      obtain ⟨hw, -, -⟩ := (Reads.plain hcut hps).space
      have hframed : Framed lex (depthAfter d (c :: w)) ps := hframed.2
      rw [Lexicon.depthAfter_of_blank hw] at hframed
      rw [Formula.spread, if_pos rfl]
      exact ih hw hslash.2 hframed
    · refine hstep hk hb hslash.1 (hcut.wordFree hlex) ?_ (ih hnone hslash.2 hframed.2)
      by_cases hatom : k = .atom
      · subst hatom
        have happart : ApartFrom (some .atom) (Formula.spread (some .atom) [] ps) := apart_spread.1
        exact Lexicon.severed_of_stops
          (not_isNameChar_of_stops ((hps.spread waits_nil).stops_isNameChar happart))
      · exact Lexicon.severed_of_last (hcut.not_latin hatom)
  | @tail c body hc hcut =>
    have hrest : written (Formula.spread (some .atom) [] [(.other, '_' :: '\x7b' :: body)]) =
        '_' :: '\x7b' :: body := by
      rw [spread_stray]
      simp
    have hletter : lex.WordFree d false [c] := Symbol.wordFree (s := ⟨c, none, 0⟩) hlex hc (by simp)
    rw [written_cons, List.mem_append, not_or] at hslash
    refine hstep (by simp) hb hslash.1 hletter ?_ ?_
    · rw [hrest]
      exact Lexicon.severed_of_stops (by simp [Stops, isLatin])
    · rw [hrest, ← List.append_nil body]
      refine .char (by decide) (.char (by decide) ?_)
      exact Lexicon.wordFree_of_inside (Nat.succ_pos _) (Text.not_mem_of_cut?_eq_none hcut)
        (by simp)

end Formula

end Formulary
