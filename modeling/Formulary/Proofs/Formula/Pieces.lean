import Formulary.Formula.Token
import Formulary.Proofs.Formula.Cut

/-! # Texts in pieces

A piece is a token without its position. `Reads` says which sequences of pieces
are the tokens of a text as far as each piece and the text after it tell; where a
call stands also depends on the text before it.
-/

namespace Formulary.Formula

open Text (Stops)

variable {known known' : Name → Bool} {k : TokenKind} {c : Char} {w t rest : Text} {i : Nat}

abbrev Piece := TokenKind × Text

/-- The text that the pieces make up. -/
def written (ps : List Piece) : Text := ps.flatMap (·.2)

@[simp] theorem written_nil : written [] = [] := rfl

@[simp] theorem written_cons {p : Piece} {ps : List Piece} :
    written (p :: ps) = p.2 ++ written ps := rfl

@[simp] theorem written_append {ps qs : List Piece} :
    written (ps ++ qs) = written ps ++ written qs := by
  simp [written]

/-- The tokens with these pieces, from position `i` on. -/
def lay (i : Nat) : List Piece → List Token
  | [] => []
  | p :: ps => ⟨p.1, p.2, i⟩ :: lay (i + p.2.length) ps

/-- Without their positions the tokens are the pieces again. -/
theorem map_lay (i : Nat) (ps : List Piece) : (lay i ps).map (fun k => (k.kind, k.text)) = ps := by
  induction ps generalizing i with
  | nil => rfl
  | cons p ps ih => rw [lay, List.map_cons, ih]

theorem mem_of_mem_lay {ps : List Piece} {k : Token} (h : k ∈ lay i ps) :
    (k.kind, k.text) ∈ ps := by
  rw [← map_lay i ps]
  exact List.mem_map.mpr ⟨k, h, rfl⟩

theorem mem_lay {ps : List Piece} {p : Piece} (h : p ∈ ps) :
    ∃ k ∈ lay i ps, k.kind = p.1 ∧ k.text = p.2 := by
  rw [← map_lay i ps] at h
  obtain ⟨k, hk, rfl⟩ := List.mem_map.mp h
  exact ⟨k, hk, rfl, rfl⟩

theorem flatMap_text_lay (i : Nat) (ps : List Piece) :
    (lay i ps).flatMap Token.text = written ps :=
  calc (lay i ps).flatMap Token.text
      = written ((lay i ps).map fun k => (k.kind, k.text)) := by rw [written, List.flatMap_map]
    _ = written ps := by rw [map_lay]

/-- What tokens of each kind start with. -/
def Starts : TokenKind → Char → Prop
  | .space, c => Text.isBlank c = true
  | .number, c => Text.isAsciiDigit c = true ∨ c = '.'
  | .atom, c | .func, c => isLetter c = true
  | .opening, c => (c == '(' || c == '[') = true
  | .closing, c => (c == ')' || c == ']') = true
  | .other, c => IsOther c

/-- The pieces that the tokens of a text may be, each cut off before the text that follows. -/
inductive Reads (known : Name → Bool) : List Piece → Prop
  | nil : Reads known []
  | call {name : Name} {ps : List Piece} (hname : CallName [] name) (hk : known name = true)
      (hl : Leads (written ps)) (hps : Reads known ps) : Reads known ((.func, name) :: ps)
  | plain {k : TokenKind} {c : Char} {w : Text} {ps : List Piece} (hcut : Cut k c w (written ps))
      (hps : Reads known ps) : Reads known ((k, c :: w) :: ps)
  | tail {c : Char} {body : Text} (hc : isLetter c = true) (hcut : Text.cut? '}' body = none) :
      Reads known [(.atom, [c]), (.other, '_' :: '{' :: body)]

/-! ### First characters -/

theorem Cut.starts (h : Cut k c w rest) : Starts k c := by
  cases h with
  | space hc => exact hc
  | number hc =>
    simp only [startsNumber, Bool.or_eq_true, Bool.and_eq_true, beq_iff_eq] at hc
    exact hc.imp_right And.left
  | subscripted _ hc => exact hc
  | letter _ hc => exact hc
  | opening hc => exact hc
  | closing hc => exact hc
  | other hc => exact hc

theorem CallName.starts {name : Name} (h : CallName rest name) :
    ∃ c w, name = c :: w ∧ isLetter c = true := by
  cases h with
  | subscripted _ hletter => exact ⟨_, _, rfl, hletter⟩
  | marked _ hletter => exact ⟨_, _, rfl, hletter⟩
  | run hletter => exact ⟨_, _, rfl, hletter⟩

theorem Reads.starts {p : Piece} {ps : List Piece} (h : Reads known (p :: ps)) :
    ∃ c w, p.2 = c :: w ∧ Starts p.1 c := by
  cases h with
  | call hname =>
    obtain ⟨c, w, rfl, hc⟩ := hname.starts
    exact ⟨c, w, rfl, hc⟩
  | plain hcut => exact ⟨_, _, rfl, hcut.starts⟩
  | tail hc => exact ⟨_, _, rfl, hc⟩

theorem Starts.isBlank_iff (h : Starts k c) : Text.isBlank c = true ↔ k = .space := by
  cases k with
  | space => simpa [Starts] using h
  | number =>
    rcases h with h | rfl
    · simp [Text.isBlank_of_isAsciiDigit h]
    · decide
  | atom => simp [isBlank_of_isLetter h]
  | func => simp [isBlank_of_isLetter h]
  | opening => simp [(isBlank_of_bracket (Or.inl h)).1]
  | closing => simp [(isBlank_of_bracket (Or.inr h)).1]
  | other => simp [h.blank]

theorem Starts.startsOperand (h : Starts k c) (hc : isNameChar c = true) :
    startsOperand k = true := by
  cases k with
  | space => simp [isNameChar_of_isBlank h] at hc
  | closing =>
    rcases (Bool.or_eq_true _ _).mp h with h | h <;>
      · obtain rfl := beq_iff_eq.mp h
        exact absurd hc (by decide)
  | other => simp [isNameChar, h.letter, h.digit] at hc
  | _ => rfl

theorem Starts.opening (h : Starts k '(') : k = .opening := by
  have hletter : isLetter '(' ≠ true := by decide
  cases k with
  | opening => rfl
  | number =>
    rcases h with h | h
    · exact absurd h (by decide)
    · exact absurd h (by decide)
  | atom => exact absurd h hletter
  | func => exact absurd h hletter
  | closing => exact absurd (show ('(' == ')' || '(' == ']') = true from h) (by decide)
  | space => exact absurd (show Text.isBlank '(' = true from h) (by decide)
  | other => exact absurd h.opening (by decide)

theorem Starts.atom_or_func (h : Starts k c) (hc : isLetter c = true) : k = .atom ∨ k = .func := by
  cases k with
  | atom => exact Or.inl rfl
  | func => exact Or.inr rfl
  | space => exact absurd h (by simp [Starts, isBlank_of_isLetter hc])
  | number =>
    rcases h with h | rfl
    · simp [isAsciiDigit_of_isLetter hc] at h
    · exact absurd hc (by decide)
  | opening => simp [(isBlank_of_bracket (Or.inl h)).2.2] at hc
  | closing => simp [(isBlank_of_bracket (Or.inr h)).2.2] at hc
  | other => simp [h.letter] at hc

/-! ### Tokens are read -/

theorem cutToken_of_none {spans : List (Nat × Nat)} (h : spanEnd? spans i = none) :
    cutToken spans i c rest = cutToken [] i c rest := by
  unfold cutToken
  rw [h]
  rfl

theorem cutToken_of_some {spans : List (Nat × Nat)}
    (h : spanEnd? spans i = some (i + (c :: w).length)) :
    cutToken spans i c (w ++ rest) = (.func, c :: w, rest) := by
  unfold cutToken
  rw [h]
  simp

theorem CallName.nil {name : Name} (h : CallName rest name) : CallName [] name := by
  cases h with
  | subscripted n hletter hcontent hopens => exact .subscripted n hletter hcontent hopens
  | marked n hletter => exact .marked n hletter
  | run hletter hmore => exact .run hletter hmore (by simp)

theorem length_lt_of_cons_append (c : Char) (w after : Text) :
    after.length < (c :: (w ++ after)).length := by
  rw [List.length_cons, List.length_append]
  omega

/-- Each call stands where its name is read backwards, behind the reversed text `before`. -/
def Called (before : Text) : List Piece → Prop
  | [] => True
  | p :: ps => (p.1 = .func → CallName before p.2) ∧ Called (p.2.reverse ++ before) ps

/-- Whatever the text, its tokens are pieces of it. -/
theorem reads_tokensFrom (pre rest : Text) :
    ∃ ps, Reads known ps ∧ Called pre.reverse ps ∧ written ps = rest ∧
      tokensFrom (callSpans known (pre ++ rest)) pre.length rest = lay pre.length ps := by
  induction hn : rest.length using Nat.strong_induction_on generalizing pre rest with
  | _ n ih =>
    subst hn
    cases rest with
    | nil => exact ⟨[], .nil, trivial, rfl, by simp [tokensFrom, lay]⟩
    | cons c rest =>
      rw [tokensFrom]
      cases hspan : spanEnd? (callSpans known (pre ++ c :: rest)) pre.length with
      | some stop =>
        obtain ⟨name, after, ht, hname, hk, hl, rfl⟩ := spanEnd?_eq_some_iff.mp hspan
        obtain ⟨c', w, rfl, -⟩ := hname.starts
        obtain ⟨rfl, rfl⟩ : c = c' ∧ rest = w ++ after := by simpa using ht
        have hshorter := length_lt_of_cons_append c w after
        obtain ⟨ps, hps, hcalled, hw, htokens⟩ := ih after.length hshorter (pre ++ c :: w) after rfl
        rw [cutToken_of_some hspan]
        refine ⟨(.func, c :: w) :: ps, .call hname.nil hk (hw ▸ hl) hps, ⟨fun _ => hname, ?_⟩,
          by simp [hw], ?_⟩
        · simpa using hcalled
        · simpa [isOpenTail, lay] using htokens
      | none =>
        rw [cutToken_of_none hspan]
        cases hcut : cutToken [] pre.length c rest with
        | mk k p =>
          obtain ⟨t, after⟩ := p
          rcases cut_of_cutToken hcut with ⟨w, rfl, rfl, hcut'⟩ |
            ⟨rfl, rfl, rfl, hc, body, rfl, hbody⟩
          · have hshorter := length_lt_of_cons_append c w after
            obtain ⟨ps, hps, hcalled, rfl, htokens⟩ :=
              ih after.length hshorter (pre ++ c :: w) after rfl
            refine ⟨(k, c :: w) :: ps, .plain hcut' hps, ⟨?_, by simpa using hcalled⟩, rfl, ?_⟩
            · rintro rfl
              cases hcut'
            · simpa [hcut'.isOpenTail, lay] using htokens
          · exact ⟨_, .tail hc hbody, by simp [Called], by simp, by simp [isOpenTail, lay]⟩

theorem called_tokens (lex : Lexicon) (functions : List Name) (t : Text) :
    ∃ ps, Reads (isCallable lex functions) ps ∧ Called [] ps ∧ written ps = t ∧
      tokens lex functions t = lay 0 ps :=
  reads_tokensFrom [] t

theorem reads_tokens (lex : Lexicon) (functions : List Name) (t : Text) :
    ∃ ps, Reads (isCallable lex functions) ps ∧ written ps = t ∧
      tokens lex functions t = lay 0 ps := by
  obtain ⟨ps, hps, -, ht, htokens⟩ := called_tokens lex functions t
  exact ⟨ps, hps, ht, htokens⟩

/-- Only the calls depend on which names are known. -/
theorem Reads.mono {ps : List Piece} (h : Reads known ps)
    (hcalls : ∀ name, (TokenKind.func, name) ∈ ps → known' name = true) : Reads known' ps := by
  induction h with
  | nil => exact .nil
  | call hname _ hl _ ih =>
    exact .call hname (hcalls _ (by simp)) hl (ih fun name h => hcalls name (by simp [h]))
  | plain hcut _ ih => exact .plain hcut (ih fun name h => hcalls name (by simp [h]))
  | tail hc hcut => exact .tail hc hcut

end Formulary.Formula
