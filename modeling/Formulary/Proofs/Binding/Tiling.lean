import Mathlib.Data.List.Chain
import Formulary.Proofs.Binding.Planned

/-! # Tokens and the text they are cut from

The tokens of a formula follow one another without a gap and make up the text. The tokens of
a head leave blanks out, so there every token stands where it is spelled, and between the
tokens there are only blanks. Which tokens are next to each other, and where a call stands,
can therefore be told from their positions.
-/

namespace Formulary

/-! ### Formulas -/

namespace Formula

variable {known : Name → Bool} {ps : List Piece}

/-- Tokens without a gap: none is empty, each starts where the one before it ends, the first at the
front, and together they are the text. -/
structure Tiles (ks : List Token) (t : Text) : Prop where
  nonempty : ∀ k ∈ ks, k.text ≠ []
  front : ∀ k ∈ ks.head?, k.position = 0
  adjacent : ks.IsChain fun k l => l.position = k.position + k.text.length
  whole : ks.flatMap Token.text = t

theorem Reads.ne_nil (hps : Reads known ps) : ∀ p ∈ ps, p.2 ≠ [] := by
  induction hps with
  | nil => simp
  | call hname _ _ _ ih =>
    obtain ⟨c, w, rfl, -⟩ := hname.starts
    exact List.forall_mem_cons.mpr ⟨List.cons_ne_nil c w, ih⟩
  | plain _ _ ih => exact List.forall_mem_cons.mpr ⟨List.cons_ne_nil _ _, ih⟩
  | tail => simp

theorem isChain_lay (i : Nat) (ps : List Piece) :
    (lay i ps).IsChain fun k l => l.position = k.position + k.text.length := by
  induction ps generalizing i with
  | nil => exact .nil
  | cons p ps ih =>
    cases ps with
    | nil => exact .singleton _
    | cons q ps => exact List.isChain_cons_cons.mpr ⟨rfl, ih (i + p.2.length)⟩

theorem tiles_lay (hps : ∀ p ∈ ps, p.2 ≠ []) : Tiles (lay 0 ps) (written ps) where
  nonempty k hk := hps _ (mem_of_mem_lay hk)
  front k hk := by
    cases ps with
    | nil => simp [lay] at hk
    | cons p ps =>
      obtain rfl := Option.some.inj hk
      rfl
  adjacent := isChain_lay 0 ps
  whole := flatMap_text_lay 0 ps

theorem tiles_tokens (lex : Lexicon) (functions : List Name) (t : Text) :
    Tiles (tokens lex functions t) t := by
  obtain ⟨ps, hps, rfl, htokens⟩ := reads_tokens lex functions t
  rw [htokens]
  exact tiles_lay hps.ne_nil

end Formula

/-! ### Heads -/

namespace Head

variable {pre rest w t : Text} {ts : List Token} {k : Token} {i : Nat}

/-- The tokens from a position on, in order and apart: each stands where it is spelled, and what
belongs to none of them is blank. -/
structure Covers (start : Nat) (ts : List Token) (t : Text) : Prop where
  inside : ∀ k ∈ ts, start ≤ k.position ∧ k.position < k.stop
  ordered : ts.Pairwise fun k l => k.stop ≤ l.position
  spelled : ∀ k ∈ ts, Text.slice t k.position k.stop = k.spelling
  blank : ∀ i c, start ≤ i → t[i]? = some c → (∀ k ∈ ts, i < k.position ∨ k.stop ≤ i) →
    Text.isBlank c = true

theorem Token.stop_eq (k : Token) : k.stop = k.position + k.spelling.length := by
  unfold stop spelling
  split
  · simp [Symbol.subscriptText, Nat.add_assoc]
  · rfl

namespace Covers

theorem nil (t : Text) : Covers t.length [] t where
  inside := by simp
  ordered := .nil
  spelled := by simp
  blank i c hi hc := by simp [List.getElem?_eq_none hi] at hc

/-- A blank before the tokens belongs to none of them. -/
theorem before (h : Covers (i + 1) ts t) {c : Char} (hc : t[i]? = some c)
    (hblank : Text.isBlank c = true) : Covers i ts t where
  inside k hk := ⟨Nat.le_of_succ_le (h.inside k hk).1, (h.inside k hk).2⟩
  ordered := h.ordered
  spelled := h.spelled
  blank j d hj hd hout := by
    rcases Nat.eq_or_lt_of_le hj with rfl | hj
    · obtain rfl := Option.some.inj (hc.symm.trans hd)
      exact hblank
    · exact h.blank j d hj hd hout

/-- A token comes in front of those from its end on. -/
theorem cons (h : Covers k.stop ts t) (hk : k.position < k.stop)
    (hspelled : Text.slice t k.position k.stop = k.spelling) : Covers k.position (k :: ts) t where
  inside := by
    refine List.forall_mem_cons.mpr ⟨⟨Nat.le_refl _, hk⟩, fun l hl => ?_⟩
    exact ⟨Nat.le_trans (Nat.le_of_lt hk) (h.inside l hl).1, (h.inside l hl).2⟩
  ordered := List.pairwise_cons.mpr ⟨fun l hl => (h.inside l hl).1, h.ordered⟩
  spelled := List.forall_mem_cons.mpr ⟨hspelled, h.spelled⟩
  blank i c hi hc hout := by
    obtain ⟨hfirst, hout⟩ := List.forall_mem_cons.mp hout
    exact h.blank i c (by omega) hc hout

/-- The token that the text goes on with comes in front. -/
theorem front (h : Covers (pre ++ w).length ts (pre ++ w ++ rest)) (hk : k.spelling = w)
    (hne : w ≠ []) (hposition : k.position = pre.length) :
    Covers pre.length (k :: ts) (pre ++ (w ++ rest)) := by
  have hstop : k.stop = pre.length + w.length := by rw [k.stop_eq, hk, hposition]
  have hlength := List.length_pos_iff.mpr hne
  rw [List.length_append, ← hstop, List.append_assoc] at h
  rw [← hposition]
  refine h.cons (by omega) ?_
  rw [hstop, hposition, hk, Text.slice_append]

end Covers

/-- What is cut covers the text from where the cutting began. -/
theorem covers_tokensFrom (pre : Text) (h : tokensFrom pre.length rest = .ok ts) :
    Covers pre.length ts (pre ++ rest) := by
  generalize hi : pre.length = i at h
  fun_induction tokensFrom i rest generalizing pre ts with
  | case1 =>
    obtain rfl := Except.ok.inj h
    rw [← hi, List.append_nil]
    exact .nil pre
  | case2 i c rest hc ih =>
    have hrest := ih (pre ++ [c]) (by simp [hi]) h
    rw [List.append_assoc, List.singleton_append] at hrest
    exact hrest.before (by simp [← hi]) hc
  | case3 => simp at h
  | case4 => simp at h
  | case5 i body content after hcut _ _ ih =>
    obtain ⟨ts', hts, he⟩ := ok_of_bind h
    obtain rfl := Except.ok.inj he
    have hsplit : '_' :: '\x7b' :: body = Symbol.subscriptText content ++ after := by
      simp [Symbol.subscriptText, Text.eq_of_cut? hcut]
    have hlength : (pre ++ Symbol.subscriptText content).length = i + content.length + 3 := by
      simp [Symbol.subscriptText, hi, Nat.add_assoc]
    have hrest := ih _ hlength hts
    rw [← hlength] at hrest
    rw [hsplit, ← hi]
    exact hrest.front rfl (List.cons_ne_nil _ _) rfl
  | case6 => simp at h
  | case7 i c rest hc hmark ih =>
    obtain ⟨ts', hts, he⟩ := ok_of_bind h
    obtain rfl := Except.ok.inj he
    have hlength : (pre ++ [c]).length = i + 1 := by simp [hi]
    have hrest := ih _ hlength hts
    rw [← hlength] at hrest
    rw [← hi]
    exact hrest.front (written_char c) (List.cons_ne_nil c []) rfl

end Head

/-! ### Both -/

/-- The tokens of a formula, whatever functions are known, follow one another without a gap and
make up the text. Where a head can be cut, its tokens stand in order where they are spelled, and
all that is before, between and behind them is blank. -/
theorem tokens_tile :
    (∀ lex functions t, Formula.Tiles (Formula.tokens lex functions t) t) ∧
      ∀ t ts, Head.tokens t = .ok ts → Head.Covers 0 ts t :=
  ⟨Formula.tiles_tokens, fun _ _ h => Head.covers_tokensFrom [] h⟩

/-- A head with a subscript behind a blank, and a formula whose last subscript is never closed. -/
theorem tokens_tile_for_subscripts :
    let head := text "f _\x7b 1\x7d' (x"
    let ts : List Head.Token := [⟨.letter, text "f", 0⟩, ⟨.subscript, text " 1", 2⟩,
      ⟨.prime, text "'", 7⟩, ⟨.lparen, text "(", 9⟩, ⟨.letter, text "x", 10⟩]
    let formula := text "1.2.3sin (x)k_\x7b1"
    let ks : List Formula.Token := [⟨.number, text "1.2", 0⟩, ⟨.number, text ".3", 3⟩,
      ⟨.func, text "sin", 5⟩, ⟨.space, text " ", 8⟩, ⟨.opening, text "(", 9⟩, ⟨.atom, text "x", 10⟩,
      ⟨.closing, text ")", 11⟩, ⟨.atom, text "k", 12⟩, ⟨.other, text "_\x7b1", 13⟩]
    (Head.tokens head = .ok ts ∧ Head.Covers 0 ts head) ∧
      Formula.tokens Lexicon.builtin [] formula = ks ∧ Formula.Tiles ks formula := by
  intro head ts formula ks
  have hhead : Head.tokens head = .ok ts := by decide +kernel
  have hformula : Formula.tokens Lexicon.builtin [] formula = ks := by decide +kernel
  exact ⟨⟨hhead, tokens_tile.2 head ts hhead⟩, hformula, hformula ▸ tokens_tile.1 _ _ formula⟩

end Formulary
