import Formulary.Head.Token
import Formulary.Proofs.Binding.Steps
import Formulary.Proofs.Text.Classes
import Formulary.Proofs.Text.Run

/-! # The tokens of a head

A head is cut into tokens exactly when it consists of the tokens' spellings with blanks
between them. Where a token stands is left out, for it only matters to what an error says.
-/

namespace Formulary.Head

open Text (Spaced)

variable {i : Nat} {t blanks : Text} {ts : List Token}

/-- A token without its position. -/
abbrev Piece := TokenKind × Text

def Token.piece (k : Token) : Piece := (k.kind, k.text)

/-- The piece as it is written. -/
def written (p : Piece) : Text := if p.1 = .subscript then Symbol.subscriptText p.2 else p.2

/-- What a token can be: a subscript that is not blank and ends at its brace, or one character. -/
inductive IsPiece : Piece → Prop
  | subscript {content : Text} (hblank : Text.isBlankText content = false)
      (hbrace : '}' ∉ content) : IsPiece (.subscript, content)
  | char {c : Char} (hblank : Text.isBlank c = false) (hmark : c ≠ '_') : IsPiece (kindOf c, [c])

theorem kindOf_ne_subscript (c : Char) : kindOf c ≠ .subscript := by
  unfold kindOf
  split_ifs <;> simp

theorem isLetter_of_kindOf {c : Char} (h : kindOf c = .letter) : isLetter c = true := by
  unfold kindOf at h
  split_ifs at h with hc
  exact hc

theorem kindOf_of_isLetter {c : Char} (h : isLetter c = true) : kindOf c = .letter := if_pos h

/-- A kind that one character alone has. -/
theorem eq_of_kindOf {c : Char} :
    (kindOf c = .lparen → c = '(') ∧ (kindOf c = .rparen → c = ')') ∧
      (kindOf c = .comma → c = ',') ∧ (kindOf c = .prime → c = '\'') := by
  unfold kindOf
  split_ifs <;> simp_all

@[simp] theorem written_char (c : Char) : written (kindOf c, [c]) = [c] :=
  if_neg (kindOf_ne_subscript c)

@[simp] theorem written_subscript (content : Text) :
    written (.subscript, content) = Symbol.subscriptText content := rfl

/-! ### One token -/

theorem subscriptText_append (content rest : Text) :
    Symbol.subscriptText content ++ rest = '_' :: '{' :: (content ++ '}' :: rest) := by
  simp [Symbol.subscriptText]

theorem tokensFrom_blank {c : Char} (hc : Text.isBlank c = true) :
    tokensFrom i (c :: t) = tokensFrom (i + 1) t := by
  rw [tokensFrom.eq_def]
  simp only [if_pos hc]

theorem tokensFrom_char {c : Char} (hc : Text.isBlank c = false) (hmark : c ≠ '_') :
    tokensFrom i (c :: t) = (do
      let ts ← tokensFrom (i + 1) t
      return ⟨kindOf c, [c], i⟩ :: ts) := by
  rw [tokensFrom.eq_def]
  simp only [hc, Bool.false_eq_true, if_false, if_neg hmark]

/-- A subscript that ends is one token, unless it is blank. -/
theorem tokensFrom_subscript {content : Text} (hbrace : '}' ∉ content) :
    tokensFrom i (Symbol.subscriptText content ++ t) =
      if Text.isBlankText content then .error (.emptySubscript i)
      else do
        let ts ← tokensFrom (i + content.length + 3) t
        return ⟨.subscript, content, i⟩ :: ts := by
  have hmark : Text.isBlank '_' = false := by decide
  rw [subscriptText_append, tokensFrom.eq_def]
  simp only [hmark, Bool.false_eq_true, if_false, if_true]
  split
  case h_1 hcut => simp [Text.cut?_append hbrace] at hcut
  case h_2 hcut =>
    rw [Text.cut?_append hbrace] at hcut
    obtain ⟨rfl, rfl⟩ := Prod.mk.inj (Option.some.inj hcut)
    rfl

/-! ### What is cut -/

/-- The tokens, with blanks between them, are the text. -/
theorem spaced_of_tokensFrom (h : tokensFrom i t = .ok ts) :
    (∀ p ∈ ts.map Token.piece, IsPiece p) ∧ Spaced ((ts.map Token.piece).map written) t := by
  fun_induction tokensFrom i t generalizing ts with
  | case1 =>
    obtain rfl := Except.ok.inj h
    exact ⟨by simp, .nil (by simp)⟩
  | case2 i c rest hc ih =>
    obtain ⟨hpieces, hspaced⟩ := ih h
    exact ⟨hpieces, hspaced.blank hc⟩
  | case3 => simp at h
  | case4 => simp at h
  | case5 i body content after hcut hblank _ ih =>
    obtain ⟨ts', hts, he⟩ := ok_of_bind h
    obtain rfl := Except.ok.inj he
    obtain ⟨hpieces, hspaced⟩ := ih hts
    refine ⟨List.forall_mem_cons.mpr
      ⟨.subscript (by simpa using hblank) (Text.not_mem_of_cut? hcut), hpieces⟩, ?_⟩
    have hsplit : '_' :: '{' :: body = Symbol.subscriptText content ++ after := by
      simp [Symbol.subscriptText, Text.eq_of_cut? hcut]
    rw [hsplit]
    exact hspaced.front
  | case6 => simp at h
  | case7 i c rest hc hmark ih =>
    obtain ⟨ts', hts, he⟩ := ok_of_bind h
    obtain rfl := Except.ok.inj he
    obtain ⟨hpieces, hspaced⟩ := ih hts
    refine ⟨List.forall_mem_cons.mpr ⟨.char (by simpa using hc) hmark, hpieces⟩, ?_⟩
    simpa [Token.piece] using hspaced.front (w := [c])

/-! ### What can be cut -/

theorem tokensFrom_blanks (h : ∀ c ∈ blanks, Text.isBlank c = true) :
    tokensFrom i (blanks ++ t) = tokensFrom (i + blanks.length) t := by
  induction blanks generalizing i with
  | nil => rfl
  | cons c blanks ih =>
    obtain ⟨hc, hblanks⟩ := List.forall_mem_cons.mp h
    rw [List.cons_append, tokensFrom_blank hc, ih hblanks, List.length_cons, Nat.add_assoc,
      Nat.add_comm 1]

/-- Pieces with blanks between them are cut where they meet. -/
theorem exists_tokensFrom {ps : List Piece} (hps : ∀ p ∈ ps, IsPiece p)
    (h : Spaced (ps.map written) t) (i : Nat) :
    ∃ ts, tokensFrom i t = .ok ts ∧ ts.map Token.piece = ps := by
  induction ps generalizing t i with
  | nil =>
    cases h with
    | nil hblanks =>
      refine ⟨[], ?_, rfl⟩
      rw [← List.append_nil t, tokensFrom_blanks hblanks]
      simp [tokensFrom]
  | cons p ps ih =>
    obtain ⟨hp, hrest⟩ := List.forall_mem_cons.mp hps
    cases h with
    | @cons blanks _ t _ hblanks ht =>
      rw [tokensFrom_blanks hblanks]
      cases hp with
      | @subscript content hblank hbrace =>
        obtain ⟨ts, hts, rfl⟩ := ih hrest ht (i + blanks.length + content.length + 3)
        refine ⟨⟨.subscript, content, i + blanks.length⟩ :: ts, ?_, rfl⟩
        rw [written_subscript, tokensFrom_subscript hbrace, if_neg (by simp [hblank]), hts]
        rfl
      | @char c hblank hmark =>
        obtain ⟨ts, hts, rfl⟩ := ih hrest ht (i + blanks.length + 1)
        refine ⟨⟨kindOf c, [c], i + blanks.length⟩ :: ts, ?_, rfl⟩
        rw [written_char, List.singleton_append, tokensFrom_char hblank hmark, hts]
        rfl

end Formulary.Head
