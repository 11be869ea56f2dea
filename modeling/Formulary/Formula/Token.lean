import Formulary.Lexicon.Basic

/-! # Tokens of a formula

Juxtaposition multiplies, but a known function name before a round bracket is a
call. So the names before brackets are found first, reading backwards from each
bracket; then the text is cut into numbers, names, calls, brackets and the rest.
No text is refused, and the tokens put together are the text again.
-/

namespace Formulary.Formula

inductive TokenKind where
  | number | atom | func | opening | closing | space | other
  deriving DecidableEq, Repr

structure Token where
  kind : TokenKind
  text : Text
  position : Nat
  deriving DecidableEq, Repr

def isNameChar (c : Char) : Bool := isLetter c || Text.isAsciiDigit c

/-- Reversed text behind the brace that opens a subscript: its content, and what stands before
the mark. The content keeps its reversed order and holds no closing brace. -/
def openSubscript? : Text → Option (Text × Text)
  | [] => none
  | '{' :: '_' :: before => some ([], before)
  | c :: rest =>
    if c = '}' then none else (openSubscript? rest).map fun p => (c :: p.1, p.2)

/-- The name that ends the reversed text `before`, whatever it is: a letter with a subscript or
marks, else the run of letters and digits without its leading digits. -/
def nameBefore? (before : Text) : Option Name :=
  let marks := before.takeWhile (· == '\'')
  match before.dropWhile (· == '\'') with
  | '}' :: inner =>
    match openSubscript? inner with
    | some (content, letter :: _) =>
      if isLetter letter then
        some (letter :: (Symbol.subscriptText content.reverse ++ marks))
      else none
    | _ => none
  | core =>
    if marks.isEmpty then
      let run := (core.takeWhile isNameChar).reverse.dropWhile Text.isAsciiDigit
      if run.isEmpty then none else some run
    else
      match core with
      | letter :: _ => if isLetter letter then some (letter :: marks) else none
      | [] => none

/-- The spans of known names before the round brackets of `t`, which comes after the reversed
text `before` and starts at position `i`. -/
def callSpansFrom (known : Name → Bool) (before : Text) (i : Nat) : Text → List (Nat × Nat)
  | [] => []
  | c :: rest =>
    let others := callSpansFrom known (c :: before) (i + 1) rest
    if c = '(' then
      let core := before.dropWhile fun b => b == ' ' || b == '\t'
      match nameBefore? core with
      | some name =>
        if known name then (core.length - name.length, core.length) :: others else others
      | none => others
    else others

def callSpans (known : Name → Bool) (t : Text) : List (Nat × Nat) := callSpansFrom known [] 0 t

/-- The names that are calls before a bracket: built-in functions and those given. -/
def isCallable (lex : Lexicon) (functions : List Name) (name : Name) : Bool :=
  lex.isFunction name || functions.contains name

def takeNumber (dotted : Bool) : Text → Text × Text
  | [] => ([], [])
  | c :: rest =>
    if Text.isAsciiDigit c then
      let (ds, after) := takeNumber dotted rest
      (c :: ds, after)
    else if c = '.' && !dotted then
      let (ds, after) := takeNumber true rest
      (c :: ds, after)
    else ([], c :: rest)

theorem takeNumber_append (dotted : Bool) (t : Text) :
    (takeNumber dotted t).1 ++ (takeNumber dotted t).2 = t := by
  fun_induction takeNumber dotted t <;> simp_all

def startsNumber : Text → Bool
  | [] => false
  | c :: rest =>
    Text.isAsciiDigit c || (c == '.' && (rest.head?.map Text.isAsciiDigit).getD false)

/-- The last span that starts at `i` tells where the call's name ends. -/
def spanEnd? (spans : List (Nat × Nat)) (i : Nat) : Option Nat :=
  (spans.reverse.find? fun s => s.1 == i).map (·.2)

/-- The token at the front of `c :: rest`, which stands at position `i`, and the text after it. A
subscript that is never closed makes the rest of the text one token, the second result. -/
def cutToken (spans : List (Nat × Nat)) (i : Nat) (c : Char) (rest : Text) :
    TokenKind × Text × Text :=
  match spanEnd? spans i with
  | some stop =>
    let more := stop - i - 1
    (.func, c :: rest.take more, rest.drop more)
  | none =>
    if Text.isBlank c then
      (.space, c :: rest.takeWhile Text.isBlank, rest.dropWhile Text.isBlank)
    else if startsNumber (c :: rest) then
      let (ds, after) := takeNumber (c = '.') rest
      (.number, c :: ds, after)
    else if isLetter c then
      match rest with
      | '_' :: '{' :: body =>
        match Text.cut? '}' body with
        | none => (.atom, [c], rest)
        | some (content, after) =>
          (.atom, c :: Symbol.subscriptText content ++ after.takeWhile (· == '\''),
            after.dropWhile (· == '\''))
      | _ => (.atom, c :: rest.takeWhile (· == '\''), rest.dropWhile (· == '\''))
    else if c == '(' || c == '[' then (.opening, [c], rest)
    else if c == ')' || c == ']' then (.closing, [c], rest)
    else (.other, [c], rest)

/-- A bare letter before `_{` is one whose subscript is never closed. -/
def isOpenTail : TokenKind → Text → Text → Bool
  | .atom, [_], '_' :: '{' :: _ => true
  | _, _, _ => false

theorem length_cutToken (spans : List (Nat × Nat)) (i : Nat) (c : Char) (rest : Text) :
    (cutToken spans i c rest).2.2.length ≤ rest.length := by
  unfold cutToken
  split
  · simp
  · split
    · exact (List.dropWhile_sublist _).length_le
    · split
      · have h := congrArg List.length (takeNumber_append (decide (c = '.')) rest)
        simp only [List.length_append] at h
        show (takeNumber (decide (c = '.')) rest).2.length ≤ rest.length
        omega
      · split
        · split
          · split
            · simp
            · rename_i body content after hcut
              have h := Text.length_of_cut? hcut
              have h' := (List.dropWhile_sublist (l := after) (· == '\'')).length_le
              simp only [List.length_cons] at *
              omega
          · exact (List.dropWhile_sublist _).length_le
        · split
          · simp
          · split <;> simp

def tokensFrom (spans : List (Nat × Nat)) (i : Nat) (t : Text) : List Token :=
  match t with
  | [] => []
  | c :: rest =>
    let cut := cutToken spans i c rest
    let token : Token := ⟨cut.1, cut.2.1, i⟩
    let next := i + cut.2.1.length
    if isOpenTail cut.1 cut.2.1 cut.2.2 then [token, ⟨.other, cut.2.2, next⟩]
    else token :: tokensFrom spans next cut.2.2
termination_by t.length
decreasing_by
  have := length_cutToken spans i c rest
  simp; omega

def tokens (lex : Lexicon) (functions : List Name) (t : Text) : List Token :=
  tokensFrom (callSpans (isCallable lex functions) t) 0 t

/-! ## Products written out

A `*` goes between two operands that stand side by side, in place of the blanks
between them. Everything else is copied, so no call and no subscript changes.
-/

def endsOperand : TokenKind → Bool
  | .number | .atom | .closing => true
  | _ => false

def startsOperand : TokenKind → Bool
  | .number | .atom | .func | .opening => true
  | _ => false

def multiplies (left right : TokenKind) : Bool := endsOperand left && startsOperand right

def writeProducts (left : Option TokenKind) (blanks : Text) : List Token → Text
  | [] => blanks
  | t :: rest =>
    if t.kind = .space then writeProducts left t.text rest
    else
      let gap := match left with
        | some k => if multiplies k t.kind then ['*'] else blanks
        | none => blanks
      gap ++ t.text ++ writeProducts (some t.kind) [] rest

def withProducts (lex : Lexicon) (functions : List Name) (t : Text) : Text :=
  writeProducts none [] (tokens lex functions t)

end Formulary.Formula
