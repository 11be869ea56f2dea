import Formulary.Text.Basic
import Formulary.Text.Identifier

/-! # Lexemes

The words of arithmetic source text: names, numbers, quoted texts and operators.
Blanks separate, a mark `#` begins a remark, and lines end only outside brackets.
Operators that only blanks keep apart are read as if they touched.
-/

namespace Formulary

inductive Lexeme where
  | name (t : Text)
  | whole (n : Nat)
  /-- `digits * 10 ^ power`, written with `count` digits that matter -/
  | decimal (digits count : Nat) (power : Int)
  | quoted
  | op (t : Text)
  | bang
  | lineEnd
  deriving DecidableEq, Repr

namespace Lexeme

open Text (isAsciiDigit isIdentStart isIdentRest)

/-- Brackets may be nested this deep. -/
def nestingLimit : Nat := 200

def longOperators : List Text :=
  ["**=", "//=", ">>=", "<<=", "...", "**", "//", ">>", "<<", "<=", ">=", "==", "!=", "->", ":=",
   "+=", "-=", "*=", "/=", "%=", "&=", "|=", "^=", "@=", "<>"].map text

def shortOperators : Text := text "+-*/%@&|^~<>()[]\x7b\x7d,:.;="

def operator? (t : Text) : Option Text :=
  match longOperators.find? fun o => o.isPrefixOf t with
  | some o => some o
  | none =>
    match t with
    | c :: _ => if shortOperators.contains c then some [c] else none
    | [] => none

/-! ### Numbers -/

/-- Goes on after a digit: more digits, each after at most one underscore. -/
def moreDigits : Text → Text × Text
  | '_' :: d :: rest =>
    if isAsciiDigit d then
      let (ds, after) := moreDigits rest
      (d :: ds, after)
    else ([], '_' :: d :: rest)
  | d :: rest =>
    if isAsciiDigit d then
      let (ds, after) := moreDigits rest
      (d :: ds, after)
    else ([], d :: rest)
  | [] => ([], [])

def digits : Text → Text × Text
  | d :: rest =>
    if isAsciiDigit d then
      let (ds, after) := moreDigits rest
      (d :: ds, after)
    else ([], d :: rest)
  | [] => ([], [])

def exponent? : Text → Option (Int × Text)
  | c :: rest =>
    if c == 'e' || c == 'E' then
      let (negative, ds) := match rest with
        | '-' :: ds => (true, ds)
        | '+' :: ds => (false, ds)
        | ds => (false, ds)
      match digits ds with
      | ([], _) => none
      | (ds, after) =>
        let n : Int := Text.digitsValue ds
        some (if negative then -n else n, after)
    else none
  | [] => none

def significantCount (ds : Text) : Nat := max 1 (ds.dropWhile (· == '0')).length

/-- A number at the front. A whole number does not begin with a zero unless it is zero. -/
def number? (t : Text) : Option (Lexeme × Text) :=
  let (front, rest) := digits t
  let (dotted, back, rest) := match rest with
    | '.' :: more =>
      let (back, after) := digits more
      (true, back, after)
    | rest => (false, [], rest)
  let all := front ++ back
  match exponent? rest with
  | some (e, after) =>
    some (.decimal (Text.digitsValue all) (significantCount all) (e - back.length), after)
  | none =>
    if dotted then
      some (.decimal (Text.digitsValue all) (significantCount all) (-(back.length : Int)), rest)
    else if front.head? == some '0' && front.any (· != '0') then none
    else some (.whole (Text.digitsValue front), rest)

/-- Nothing that could belong to a name follows a number. -/
def endsCleanly (t : Text) : Bool := !(t.head?.map isIdentRest).getD false

/-! ### Quoted texts -/

/-- What follows the closing quote; a backslash protects the next character. -/
def afterQuote? (quote : Char) : Text → Option Text
  | [] => none
  | '\\' :: _ :: rest => afterQuote? quote rest
  | c :: rest =>
    if c = quote then some rest else if c = '\n' then none else afterQuote? quote rest

def afterTriple? (quote : Char) : Text → Option Text
  | [] => none
  | '\\' :: _ :: rest => afterTriple? quote rest
  | c :: rest =>
    if [quote, quote, quote].isPrefixOf (c :: rest) then some (rest.drop 2)
    else afterTriple? quote rest

def quotedRest? (quote : Char) (t : Text) : Option Text :=
  if [quote, quote].isPrefixOf t then afterTriple? quote (t.drop 2) else afterQuote? quote t

/-! ### The sequence -/

def isOpening (t : Text) : Bool := t == ['('] || t == ['['] || t == ['\x7b']

def isClosing (t : Text) : Bool := t == [')'] || t == [']'] || t == ['\x7d']

/-- The depth of brackets after an operator, unless it is too deep. -/
def depthAfter? (depth : Nat) (o : Text) : Option Nat :=
  if isOpening o then if depth < nestingLimit then some (depth + 1) else none
  else if isClosing o then some (depth - 1)
  else some depth

/-- One step: a lexeme or nothing from the front of `c :: rest`, and what follows it. -/
def cut? (c : Char) (rest : Text) : Option (Option Lexeme × Text) :=
  let t := c :: rest
  if c == ' ' || c == '\t' || c == '\x0c' then some (none, rest)
  else if c == '\n' then some (some .lineEnd, rest)
  else if c == '#' then some (none, rest.dropWhile (· != '\n'))
  else if isAsciiDigit c || (c == '.' && (rest.head?.map isAsciiDigit).getD false) then
    match number? t with
    | some (l, after) => if endsCleanly after then some (some l, after) else none
    | none => none
  else if isIdentStart c then
    some (some (.name (c :: rest.takeWhile isIdentRest)), rest.dropWhile isIdentRest)
  else if c == '\'' || c == '"' then (quotedRest? c rest).map fun after => (some .quoted, after)
  else
    match operator? t with
    | some o => some (some (.op o), t.drop o.length)
    | none => if c == '!' then some (some .bang, rest) else none

/-- All lexemes, in a text of which at most `fuel` characters are read. -/
def scan : Nat → Nat → Text → Option (List Lexeme)
  | _, _, [] => some []
  | 0, _, _ :: _ => none
  | fuel + 1, depth, c :: rest => do
    match ← cut? c rest with
    | (none, after) => scan fuel depth after
    | (some .lineEnd, after) =>
      if 0 < depth then scan fuel depth after else return .lineEnd :: (← scan fuel depth after)
    | (some (.op o), after) => return .op o :: (← scan fuel (← depthAfter? depth o) after)
    | (some l, after) => return l :: (← scan fuel depth after)

/-- Splits touching operators, the longest first. -/
def splitOperators : Nat → Text → List Lexeme
  | 0, _ => []
  | fuel + 1, t =>
    match operator? t with
    | some o => .op o :: splitOperators fuel (t.drop o.length)
    | none => []

/-- Reads neighbouring operators as one run; `run` is the run so far. -/
def regroup (run : Text) : List Lexeme → List Lexeme
  | .op o :: rest => regroup (run ++ o) rest
  | l :: rest => splitOperators run.length run ++ l :: regroup [] rest
  | [] => splitOperators run.length run

/-- The lexemes of a text, blank ends and leading empty lines dropped. -/
def ofText? (t : Text) : Option (List Lexeme) :=
  let t := Text.strip t
  (scan t.length 0 t).map fun ls => regroup [] (ls.dropWhile (· == .lineEnd))

end Lexeme

end Formulary
