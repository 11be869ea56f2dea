import Formulary.Proofs.Binding.Planned

/-! # More functions known

A formula is cut in the same way when more functions are known, as long as none of
their names stands in it as an atom. Writing products out changes neither its atoms
nor its calls.
-/

namespace Formulary.Formula

open Text (Stops)

variable {lex : Lexicon} {functions functions' : List Name} {known known' : Name → Bool}
  {t rest after : Text} {name : Name}

/-- The name of a call that is spelled as a symbol is cut off whole. -/
theorem CallName.cut (h : CallName rest name) (hn : Spelled name) (hl : Leads after) :
    ∃ c w, name = c :: w ∧ Cut .atom c w after := by
  have hstop : Stops isMark after := hl.stops fun _ => isMark_of_gap
  cases h with
  | subscripted n hletter hcontent => exact ⟨_, _, rfl, .subscripted n hletter hcontent hstop⟩
  | marked n hletter => exact ⟨_, _, rfl, .letter (n + 1) hletter hstop (by simp)⟩
  | @run letter more hletter hmore =>
    obtain rfl : more = [] := by
      cases more with
      | nil => rfl
      | cons d more =>
        obtain ⟨_, _, he, -, hhead⟩ := hn
        obtain ⟨rfl, rfl⟩ := List.cons.inj he
        have hd := hmore d List.mem_cons_self
        rcases hhead d rfl with rfl | rfl
        · exact absurd hd (by decide)
        · exact absurd hd (by decide)
    refine ⟨letter, [], rfl, .letter 0 hletter hstop fun _ body he => ?_⟩
    rw [he, leads_cons (by decide)] at hl
    exact absurd hl (by decide)

/-- Where no call starts, none starts either when more names are known, unless an atom stands
there with such a name. -/
theorem spanEnd?_of_known {pre : Text} (hnew : ∀ n, known' n = true → known n = false → Spelled n)
    (hnone : spanEnd? (callSpans known (pre ++ rest)) pre.length = none)
    (hatom : ∀ c w after, rest = c :: w ++ after → Cut .atom c w after →
      known' (c :: w) = true → known (c :: w) = true) :
    spanEnd? (callSpans known' (pre ++ rest)) pre.length = none := by
  cases hspan : spanEnd? (callSpans known' (pre ++ rest)) pre.length with
  | none => rfl
  | some stop =>
    obtain ⟨name, after, ht, hname, hk', hl, -⟩ := spanEnd?_eq_some_iff.mp hspan
    have hk : known name = true := by
      by_contra hk
      obtain ⟨c, w, rfl, hcut⟩ := hname.cut (hnew name hk' (by simpa using hk)) hl
      exact hk (hatom c w after ht hcut hk')
    rw [spanEnd?_eq_some_iff.mpr ⟨name, after, ht, hname, hk, hl, rfl⟩] at hnone
    cases hnone

/-- More known names change no token, as long as no atom is one of them. -/
theorem tokensFrom_of_known (hmono : ∀ n, known n = true → known' n = true)
    (hnew : ∀ n, known' n = true → known n = false → Spelled n) (pre rest : Text)
    (hatoms : ∀ k ∈ tokensFrom (callSpans known (pre ++ rest)) pre.length rest, k.kind = .atom →
      known' k.text = true → known k.text = true) :
    tokensFrom (callSpans known' (pre ++ rest)) pre.length rest =
      tokensFrom (callSpans known (pre ++ rest)) pre.length rest := by
  induction hn : rest.length using Nat.strong_induction_on generalizing pre rest with
  | _ n ih =>
    subst hn
    cases rest with
    | nil => rw [tokensFrom, tokensFrom]
    | cons c rest =>
      rw [tokensFrom] at hatoms
      rw [tokensFrom, tokensFrom]
      cases hspan : spanEnd? (callSpans known (pre ++ c :: rest)) pre.length with
      | some stop =>
        obtain ⟨name, after, ht, hname, hk, hl, rfl⟩ := spanEnd?_eq_some_iff.mp hspan
        have hspan' := spanEnd?_eq_some_iff.mpr ⟨name, after, ht, hname, hmono name hk, hl, rfl⟩
        obtain ⟨c', w, rfl, -⟩ := hname.starts
        obtain ⟨rfl, rfl⟩ : c = c' ∧ rest = w ++ after := by simpa using ht
        rw [cutToken_of_some hspan] at hatoms ⊢
        rw [cutToken_of_some hspan']
        have htail := ih after.length (length_lt_of_cons_append c w after) (pre ++ c :: w) after
          (by simpa [isOpenTail] using hatoms) rfl
        simpa [isOpenTail] using htail
      | none =>
        rw [cutToken_of_none hspan] at hatoms ⊢
        have hspan' : spanEnd? (callSpans known' (pre ++ c :: rest)) pre.length = none := by
          refine spanEnd?_of_known hnew hspan fun c' w after ht hcut hk' => ?_
          obtain ⟨rfl, rfl⟩ : c = c' ∧ rest = w ++ after := by simpa using ht
          rw [hcut.cutToken, if_neg (by simp [hcut.isOpenTail])] at hatoms
          exact hatoms _ List.mem_cons_self rfl hk'
        rw [cutToken_of_none hspan']
        rcases hcut : cutToken [] pre.length c rest with ⟨k, t, after⟩
        rw [hcut] at hatoms
        rcases cut_of_cutToken hcut with ⟨w, rfl, rfl, hcut'⟩ | ⟨rfl, rfl, rfl, -, body, rfl, -⟩
        · rw [if_neg (by simp [hcut'.isOpenTail])] at hatoms
          have htail := ih after.length (length_lt_of_cons_append c w after) (pre ++ c :: w) after
            (by simpa using fun k hk => hatoms k (List.mem_cons_of_mem _ (by simpa using hk))) rfl
          simpa [hcut'.isOpenTail] using htail
        · rfl

/-! ### Formulas -/

/-- The atoms and calls of a formula, in order. -/
def mentioned (lex : Lexicon) (functions : List Name) (t : Text) : List Name :=
  ((tokens lex functions t).filter fun k => k.kind = .atom || k.kind = .func).map Token.text

theorem mem_mentioned : name ∈ mentioned lex functions t ↔
    ∃ k ∈ tokens lex functions t, (k.kind = .atom ∨ k.kind = .func) ∧ k.text = name := by
  simp [mentioned, and_assoc]

/-- Functions that a formula does not mention do not matter to its tokens. -/
theorem tokens_of_known (hsub : ∀ n ∈ functions, n ∈ functions')
    (hnew : ∀ n ∈ functions', n ∉ functions → Spelled n ∧ n ∉ mentioned lex functions t) :
    tokens lex functions' t = tokens lex functions t := by
  have hadded : ∀ n, isCallable lex functions' n = true → isCallable lex functions n = false →
      n ∈ functions' ∧ n ∉ functions := by
    intro n hn hno
    rw [← Bool.not_eq_true, isCallable_iff, not_or] at hno
    exact ⟨(isCallable_iff.mp hn).resolve_left hno.1, hno.2⟩
  refine tokensFrom_of_known (fun n hn => ?_) (fun n hn hno => ?_) [] t fun k hk hatom hk' => ?_
  · exact isCallable_iff.mpr ((isCallable_iff.mp hn).imp_right (hsub n))
  · exact (hnew n (hadded n hn hno).1 (hadded n hn hno).2).1
  · by_contra hno
    obtain ⟨hin, hnot⟩ := hadded k.text hk' (by simpa using hno)
    exact (hnew k.text hin hnot).2 (mem_mentioned.mpr ⟨k, hk, Or.inl hatom, rfl⟩)

/-- Only which functions there are matters, not their order. -/
theorem tokens_of_iff (h : ∀ n, n ∈ functions' ↔ n ∈ functions) :
    tokens lex functions' t = tokens lex functions t :=
  tokens_of_known (fun n => (h n).mpr) fun n hn hno => absurd ((h n).mp hn) hno

theorem of_mem_spread {left : Option TokenKind} {blanks : Text} {ps : List Piece} {p : Piece}
    (h : p ∈ spread left blanks ps) : p.1 = .other ∨ p.1 = .space ∨ p ∈ ps := by
  have hgap : ∀ blanks, ∀ p ∈ gap blanks, p.1 = .space := by
    intro blanks p hp
    unfold gap at hp
    split at hp
    · cases hp
    · rw [List.mem_singleton.mp hp]
  induction ps generalizing left blanks with
  | nil => exact Or.inr (Or.inl (hgap _ _ h))
  | cons q ps ih =>
    by_cases hq : q.1 = .space
    · rw [spread, if_pos hq] at h
      exact (ih h).imp_right (Or.imp_right (List.mem_cons_of_mem q))
    · rw [spread_cons hq, List.mem_append, List.mem_cons, between] at h
      rcases h with h | rfl | h
      · split at h
        · rw [List.mem_singleton.mp h]
          exact Or.inl rfl
        · exact Or.inr (Or.inl (hgap _ _ h))
      · exact Or.inr (Or.inr List.mem_cons_self)
      · exact (ih h).imp_right (Or.imp_right (List.mem_cons_of_mem q))

/-- With its products written out, a formula mentions no more than before. -/
theorem mentioned_withProducts
    (h : name ∈ mentioned lex functions (withProducts lex functions t)) :
    name ∈ mentioned lex functions t := by
  obtain ⟨ps, hps, rfl, htokens⟩ := reads_tokens lex functions t
  obtain ⟨k, hk, hkind, rfl⟩ := mem_mentioned.mp h
  rw [withProducts, htokens, writeProducts_lay,
    tokens_written (hps.spread waits_nil) apart_spread.2] at hk
  have hpiece : (k.kind, k.text) ∈ ps := by
    rcases of_mem_spread (mem_of_mem_lay hk) with he | he | hin
    · rcases hkind with hkind | hkind <;> simp [hkind] at he
    · rcases hkind with hkind | hkind <;> simp [hkind] at he
    · exact hin
  obtain ⟨k', hk', hkind', htext⟩ := mem_lay (i := 0) hpiece
  exact mem_mentioned.mpr ⟨k', htokens ▸ hk', hkind' ▸ hkind, htext⟩

theorem mem_mentioned_of_mem_freeSymbols {complex : Bool} {bound : List Name}
    (h : name ∈ freeSymbols lex complex bound functions t) : name ∈ mentioned lex functions t := by
  simp only [freeSymbols, Text.mem_dedup, List.mem_filter, List.mem_map] at h
  obtain ⟨⟨k, ⟨hk, hkind⟩, rfl⟩, -⟩ := h
  exact mem_mentioned.mpr ⟨k, hk, Or.inl (by simpa using hkind), rfl⟩

end Formulary.Formula
