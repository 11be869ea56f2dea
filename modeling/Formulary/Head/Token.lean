import Formulary.Error

/-! # Tokens of a head

The left-hand side of a definition is read letter by letter; only a subscript in
braces is longer. Blanks are dropped, so tokens carry their positions.
-/

namespace Formulary.Head

inductive TokenKind where
  | letter | subscript | prime | lparen | rparen | comma | other
  deriving DecidableEq, Repr

/-- A subscript's text is its content without the braces. -/
structure Token where
  kind : TokenKind
  text : Text
  position : Nat
  deriving DecidableEq, Repr

namespace Token

def spelling (t : Token) : Text :=
  if t.kind = .subscript then Symbol.subscriptText t.text else t.text

def stop (t : Token) : Nat :=
  if t.kind = .subscript then t.position + t.text.length + 3 else t.position + t.text.length

end Token

def kindOf (c : Char) : TokenKind :=
  if isLetter c then .letter
  else if c == '(' then .lparen
  else if c == ')' then .rparen
  else if c == ',' then .comma
  else if c == '\'' then .prime
  else .other

/-- The tokens of `t`, which stands at position `i`. -/
def tokensFrom (i : Nat) (t : Text) : Except BindError (List Token) :=
  match t with
  | [] => .ok []
  | c :: rest =>
    if Text.isBlank c then tokensFrom (i + 1) rest
    else if c = '_' then
      match rest with
      | '{' :: body =>
        match h : Text.cut? '}' body with
        | none => .error (.openSubscript i)
        | some (content, after) =>
          if Text.isBlankText content then .error (.emptySubscript i)
          else do
            let tokens ← tokensFrom (i + content.length + 3) after
            return ⟨.subscript, content, i⟩ :: tokens
      | _ => .error (.bareSubscript i)
    else do
      let tokens ← tokensFrom (i + 1) rest
      return ⟨kindOf c, [c], i⟩ :: tokens
termination_by t.length
decreasing_by
  · simp
  · have := Text.length_of_cut? h
    simp; omega
  · simp

def tokens (t : Text) : Except BindError (List Token) := tokensFrom 0 t

end Formulary.Head
