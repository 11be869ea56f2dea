import Formulary.Formula.Symbols
import Formulary.Proofs.Formula.Spread

/-! # Formulas with products written out

Once no two operands stand side by side, a name before a bracket is a call, and
nothing else can become one: the tokens no longer depend on which other functions
are known. Writing products out a second time changes nothing.
-/

namespace Formulary.Formula

open Text (Stops takeWhile_eq_nil takeWhile_append_stop)

variable {lex : Lexicon} {functions functions' : List Name} {known : Name → Bool} {t : Text}

/-- The text consists of pieces that are apart, each call one of a callable name. -/
def WrittenOut (lex : Lexicon) (functions : List Name) (t : Text) : Prop :=
  ∃ ps, Reads (isCallable lex functions) ps ∧ Apart ps ∧ written ps = t

theorem writtenOut_withProducts (lex : Lexicon) (functions : List Name) (t : Text) :
    WrittenOut lex functions (withProducts lex functions t) := by
  obtain ⟨ps, hps, -, htokens⟩ := reads_tokens lex functions t
  refine ⟨spread none [] ps, hps.spread waits_nil, apart_spread.2, ?_⟩
  rw [withProducts, htokens, writeProducts_lay]

/-! ### No call starts at another piece -/

/-- Read forwards, the name at a letter is the whole piece. -/
theorem frontName_of_cut {c : Char} {w after : Text} (h : Cut .atom c w after)
    (ha : Stops isNameChar after) : frontName (c :: w ++ after) = c :: w := by
  cases h with
  | @subscripted _ content _ n _ hcontent hmark =>
    have ht : c :: (Symbol.subscriptText content ++ marks n) ++ after =
        c :: '_' :: '{' :: (content ++ '}' :: (marks n ++ after)) := by
      simp [Symbol.subscriptText]
    rw [ht]
    simp only [frontName, Text.cut?_append hcontent]
    rw [takeWhile_append_stop (fun _ => isMark_of_mem_marks) hmark]
  | letter n _ hmark hopen =>
    cases n with
    | zero =>
      have hprime : ∀ rest, after ≠ '\'' :: rest := by
        rintro rest rfl
        exact absurd (hmark '\'' rfl) (by decide)
      change frontName (c :: after) = [c]
      rw [frontName, takeWhile_eq_nil ha]
      · exact fun body => hopen rfl body
      · exact hprime
    | succ n =>
      have ht : c :: marks (n + 1) ++ after = c :: '\'' :: (marks n ++ after) := by
        simp [List.replicate_succ]
      rw [ht]
      simp only [frontName]
      rw [← List.cons_append, ← List.replicate_succ,
        takeWhile_append_stop (fun _ => isMark_of_mem_marks) hmark]

theorem frontName_tail {c : Char} {body : Text} (hbody : Text.cut? '}' body = none) :
    frontName (c :: '_' :: '{' :: body) = [c] := by
  simp [frontName, hbody]

theorem Reads.stops_isNameChar {ps : List Piece} (h : Reads known ps)
    (ha : ApartFrom (some .atom) ps) : Stops isNameChar (written ps) := by
  cases ps with
  | nil => simp [Stops]
  | cons p ps =>
    obtain ⟨c, w, hw, hc⟩ := h.starts
    intro d hd
    obtain rfl : c = d := by simpa [hw] using hd
    by_cases hp : p.1 = .space
    · exact isNameChar_of_isBlank (hc.isBlank_iff.mpr hp)
    · rw [Bool.eq_false_iff]
      intro hn
      have := ha .atom rfl p.1 (by simp [nextKind?_cons hp])
      simp [multiplies, endsOperand, hc.startsOperand hn] at this

theorem leads_cons {c : Char} {rest : Text} (hc : isGap c = false) :
    Leads (c :: rest) ↔ c = '(' := by
  simp [Leads, hc]

theorem Leads.of_blanks {w rest : Text} (hw : ∀ b ∈ w, Text.isBlank b = true)
    (h : Leads (w ++ rest)) : Leads rest := by
  induction w with
  | nil => exact h
  | cons b w ih =>
    by_cases hb : isGap b = true
    · refine ih (fun d hd => hw d (List.mem_cons_of_mem b hd)) ?_
      simpa [Leads, hb] using h
    · rw [List.cons_append, leads_cons (by simpa using hb)] at h
      subst h
      exact absurd (hw '(' (by simp)) (by decide)

/-- A round bracket that follows opens a piece of its own. -/
theorem Reads.nextKind?_of_leads {ps : List Piece} (h : Reads known ps)
    (hl : Leads (written ps)) : nextKind? ps = some .opening := by
  induction ps with
  | nil => simp [Leads] at hl
  | cons p ps ih =>
    by_cases hp : p.1 = .space
    · obtain ⟨w, rfl, hw, -, hps⟩ := h.of_cons hp
      rw [nextKind?_space]
      exact ih hps (hl.of_blanks hw)
    · obtain ⟨c, w, hw, hc⟩ := h.starts
      rw [written_cons, hw, List.cons_append, leads_cons (hc.isGap hp)] at hl
      subst hl
      rw [nextKind?_cons hp, hc.opening]

theorem Reads.not_leads {ps : List Piece} (h : Reads known ps) (ha : ApartFrom (some .atom) ps) :
    ¬ Leads (written ps) := by
  intro hl
  have := ha .atom rfl .opening (by simp [h.nextKind?_of_leads hl])
  simp [multiplies, endsOperand, startsOperand] at this

theorem CallName.of_stops {name : Name} {rest : Text} (h : CallName [] name)
    (hrest : Stops isNameChar rest) : CallName rest name := by
  cases h with
  | subscripted n hletter hcontent hopens => exact .subscripted n hletter hcontent hopens
  | marked n hletter => exact .marked n hletter
  | run hletter hmore => exact .run hletter hmore (by simp [takeWhile_eq_nil hrest])

/-- At a piece apart from the next no name before a bracket starts. -/
theorem Cut.not_call {k : TokenKind} {c : Char} {w rest after : Text} {name : Name}
    {ps : List Piece} (h : Cut k c w (written ps)) (hps : Reads known ps)
    (ha : ApartFrom (some k) ps) (ht : c :: w ++ written ps = name ++ after)
    (hname : CallName rest name) : ¬ Leads after := by
  intro hl
  obtain ⟨c', w', rfl, hc⟩ := hname.starts
  obtain rfl : c = c' := (List.cons.inj ht).1
  rcases h.starts.atom_or_func hc with rfl | rfl
  · have hfront := frontName_of_callName hname hl
    rw [← ht, frontName_of_cut h (hps.stops_isNameChar ha)] at hfront
    obtain rfl := (List.cons.inj hfront).2
    rw [← List.append_cancel_left ht] at hl
    exact hps.not_leads ha hl
  · cases h

/-- Before a call that is not multiplied no name character stands. -/
theorem Cut.stops_reverse {k : TokenKind} {c : Char} {w after rest : Text} (h : Cut k c w after)
    (hk : endsOperand k = false) : Stops isNameChar ((c :: w).reverse ++ rest) := by
  cases h with
  | space hc hw =>
    refine Text.stops_append (by simp) fun d hd => isNameChar_of_isBlank ?_
    rcases List.mem_cons.mp (List.mem_reverse.mp hd) with rfl | hd
    · exact hc
    · exact hw d hd
  | opening hc =>
    rcases (Bool.or_eq_true _ _).mp hc with h | h <;>
      · obtain rfl := beq_iff_eq.mp h
        simp [Stops, isNameChar, isLetter, isLatin, isGreek, Text.isAsciiDigit]
  | other hc => simp [Stops, isNameChar, hc.letter, hc.digit]
  | _ => simp [endsOperand] at hk

/-! ### The tokens -/

theorem spanEnd?_eq_none {pre rest : Text}
    (h : ∀ name after, rest = name ++ after → CallName pre.reverse name → ¬ Leads after) :
    spanEnd? (callSpans known (pre ++ rest)) pre.length = none := by
  cases hspan : spanEnd? (callSpans known (pre ++ rest)) pre.length with
  | none => rfl
  | some stop =>
    obtain ⟨name, after, ht, hname, -, hl, -⟩ := spanEnd?_eq_some_iff.mp hspan
    exact absurd hl (h name after ht hname)

/-- Pieces that are apart are the tokens of their text. -/
theorem tokensFrom_written {ps : List Piece} (hps : Reads known ps) (ha : Apart ps) (pre : Text)
    (hpre : ∀ p ∈ ps.head?, p.1 = .func → Stops isNameChar pre.reverse) :
    tokensFrom (callSpans known (pre ++ written ps)) pre.length (written ps) =
      lay pre.length ps := by
  induction hps generalizing pre with
  | nil => simp [tokensFrom, lay]
  | @call name ps hname hk hl hps ih =>
    obtain ⟨c, w, rfl, -⟩ := hname.starts
    have hspan : spanEnd? (callSpans known (pre ++ (c :: w ++ written ps))) pre.length =
        some (pre.length + (c :: w).length) :=
      spanEnd?_eq_some_iff.mpr ⟨c :: w, written ps, rfl,
        hname.of_stops (hpre _ rfl rfl), hk, hl, rfl⟩
    have hnext : ∀ p ∈ ps.head?, p.1 = .func → Stops isNameChar (pre ++ c :: w).reverse := by
      intro p hp hfunc
      obtain ⟨qs, rfl⟩ := List.head?_eq_some_iff.mp hp
      have := hps.nextKind?_of_leads hl
      rw [nextKind?_cons (by simp [hfunc]), hfunc] at this
      simp at this
    have htokens := ih ha.2 (pre ++ c :: w) hnext
    rw [written_cons, List.cons_append, tokensFrom, ← List.cons_append, cutToken_of_some hspan]
    simpa [isOpenTail, lay] using htokens
  | @plain k c w ps hcut hps ih =>
    have hspan : spanEnd? (callSpans known (pre ++ (c :: w ++ written ps))) pre.length = none :=
      spanEnd?_eq_none fun name after ht hname => hcut.not_call hps ha.1 ht hname
    have hnext : ∀ p ∈ ps.head?, p.1 = .func → Stops isNameChar (pre ++ c :: w).reverse := by
      intro p hp hfunc
      obtain ⟨qs, rfl⟩ := List.head?_eq_some_iff.mp hp
      rw [List.reverse_append]
      apply hcut.stops_reverse
      have := ha.1 k rfl p.1 (by rw [nextKind?_cons (by simp [hfunc])]; rfl)
      simpa [multiplies, hfunc, startsOperand] using this
    have htokens := ih ha.2 (pre ++ c :: w) hnext
    rw [written_cons, List.cons_append, tokensFrom, ← List.cons_append, cutToken_of_none hspan,
      hcut.cutToken]
    simpa [hcut.isOpenTail, lay] using htokens
  | @tail c body hc hbody =>
    have ht : written [(.atom, [c]), (.other, '_' :: '{' :: body)] = c :: '_' :: '{' :: body := by
      simp
    have hspan : spanEnd? (callSpans known (pre ++ c :: '_' :: '{' :: body)) pre.length = none := by
      refine spanEnd?_eq_none fun name after hsplit hname hl => ?_
      have hfront := frontName_of_callName hname hl
      rw [← hsplit, frontName_tail hbody] at hfront
      subst hfront
      obtain rfl : '_' :: '{' :: body = after := by simpa using hsplit
      exact absurd ((leads_cons (by decide)).mp hl) (by decide)
    rw [ht, tokensFrom, cutToken_of_none hspan, cutToken_subscript hc, hbody]
    simp [isOpenTail, lay]

theorem tokens_written {ps : List Piece} (hps : Reads (isCallable lex functions) ps)
    (ha : Apart ps) : tokens lex functions (written ps) = lay 0 ps :=
  tokensFrom_written hps ha [] (by simp [Stops])

theorem mem_calledNames {name : Name} :
    name ∈ calledNames lex functions t ↔
      ∃ k ∈ tokens lex functions t, k.kind = .func ∧ k.text = name := by
  simp [calledNames, and_assoc]

/-- The tokens stay the same while the functions that are called stay callable. -/
theorem WrittenOut.congr (h : WrittenOut lex functions t)
    (hcalls : ∀ name ∈ calledNames lex functions t, isCallable lex functions' name = true) :
    tokens lex functions' t = tokens lex functions t ∧ WrittenOut lex functions' t := by
  obtain ⟨ps, hps, ha, rfl⟩ := h
  have hps' : Reads (isCallable lex functions') ps := by
    refine hps.mono fun name hname => hcalls name (mem_calledNames.mpr ?_)
    rw [tokens_written hps ha]
    exact mem_lay hname
  refine ⟨?_, ps, hps', ha, rfl⟩
  rw [tokens_written hps ha, tokens_written hps' ha]

theorem written_spread_of_apart {ps : List Piece} {left : Option TokenKind} {blanks : Text}
    (hps : Reads known ps) (ha : Apart ps) (hleft : ApartFrom left ps) (hb : Waits blanks ps) :
    written (spread left blanks ps) = blanks ++ written ps := by
  have hbetween : ∀ {p : Piece} {ps : List Piece} {left : Option TokenKind} {blanks : Text},
      p.1 ≠ .space → ApartFrom left (p :: ps) → between left blanks p.1 = gap blanks := by
    intro p ps left blanks hp hleft
    have : left.any (multiplies · p.1) = false := by
      cases left with
      | none => rfl
      | some l => exact hleft l rfl p.1 (by rw [nextKind?_cons hp]; rfl)
    rw [between, this]
    rfl
  induction hps generalizing left blanks with
  | nil => simp [spread]
  | call _ _ _ _ ih =>
    rw [spread_cons (by simp), hbetween (by simp) hleft, written_append, written_gap, written_cons,
      ih ha.2 ha.1 waits_nil, List.nil_append, written_cons]
  | @plain k c w ps hcut hps ih =>
    by_cases hk : k = .space
    · subst hk
      obtain rfl := hb.eq_nil (.plain hcut hps) rfl
      obtain ⟨hw, hstop, -⟩ := (Reads.plain hcut hps).space
      rw [spread, if_pos rfl, ih ha.2 (apartFrom_space.mp hleft) ⟨hw, fun _ => hstop⟩]
      rfl
    · rw [spread_cons hk, hbetween hk hleft, written_append, written_gap, written_cons,
        ih ha.2 ha.1 waits_nil, List.nil_append, written_cons]
  | tail =>
    rw [spread_cons (by simp), hbetween (by simp) hleft, written_append, written_gap,
      spread_cons (by simp), hbetween (by simp) ha.1]
    simp [gap, spread]

/-- Products that are written out are not written out again. -/
theorem WrittenOut.withProducts (h : WrittenOut lex functions t) :
    withProducts lex functions t = t := by
  obtain ⟨ps, hps, ha, rfl⟩ := h
  rw [Formula.withProducts, tokens_written hps ha, writeProducts_lay,
    written_spread_of_apart hps ha (by simp [ApartFrom]) waits_nil, List.nil_append]

/-! ### Every call has its bracket -/

theorem Reads.known_of_lay {ps : List Piece} (hps : Reads known ps) {i : Nat} {k : Token}
    (hk : k ∈ lay i ps) (hfunc : k.kind = .func) : known k.text = true := by
  induction hps generalizing i with
  | nil => simp [lay] at hk
  | call _ hname _ _ ih =>
    rcases List.mem_cons.mp hk with rfl | hk
    · exact hname
    · exact ih hk
  | plain hcut _ ih =>
    rcases List.mem_cons.mp hk with rfl | hk
    · obtain rfl : _ = TokenKind.func := hfunc
      cases hcut
    · exact ih hk
  | tail =>
    simp only [lay, List.mem_cons, List.not_mem_nil, or_false] at hk
    rcases hk with rfl | rfl <;> simp at hfunc

theorem lay_func {ps : List Piece} (hps : Reads known ps) (pre : Text) {k : Token}
    (hk : k ∈ lay pre.length ps) (hfunc : k.kind = .func) :
    Leads ((pre ++ written ps).drop (k.position + k.text.length)) := by
  induction hps generalizing pre with
  | nil => simp [lay] at hk
  | @call name ps _ _ hl _ ih =>
    rcases List.mem_cons.mp hk with rfl | hk
    · simpa [← List.append_assoc] using hl
    · simpa using ih (pre ++ name) (by simpa using hk)
  | @plain kind c w ps hcut _ ih =>
    rcases List.mem_cons.mp hk with rfl | hk
    · obtain rfl : kind = .func := hfunc
      cases hcut
    · simpa using ih (pre ++ c :: w) (by simpa using hk)
  | tail =>
    simp only [lay, List.mem_cons, List.not_mem_nil, or_false] at hk
    rcases hk with rfl | rfl <;> simp at hfunc

/-- A call is found for every name in call position that is not built in. -/
theorem callOf?_isSome (arities : Arities) {k : Token} (hk : k ∈ tokens lex functions t)
    (hfunc : k.kind = .func) (hname : lex.isFunction k.text = false) :
    ∃ c, callOf? lex arities t k = some c ∧ c.name = k.text := by
  obtain ⟨ps, hps, rfl, htokens⟩ := reads_tokens lex functions t
  rw [htokens] at hk
  have hl := lay_func hps [] (by simpa using hk) hfunc
  rw [List.nil_append] at hl
  have hmem : '(' ∈ (written ps).drop (k.position + k.text.length) :=
    (List.dropWhile_sublist isGap).mem (List.mem_of_head? hl)
  have hfound : (Text.find? (written ps) '(' (k.position + k.text.length)).isSome = true := by
    rw [Text.find?, Option.isSome_map, List.findIdx?_isSome]
    exact List.any_eq_true.mpr ⟨'(', hmem, by simp⟩
  obtain ⟨opening, hopening⟩ := Option.isSome_iff_exists.mp hfound
  refine ⟨⟨k.text, Bracket.argumentCount (written ps) opening, arities.get? k.text, k.position⟩,
    ?_, rfl⟩
  simp [callOf?, hfunc, hname, hopening]

end Formulary.Formula
