import Formulary.Head.Token
import Formulary.Lexicon.Builtin

/-! # Heads

What a definition defines: a parameter, a function with its formal parameters, or
the plot without a name, written `y`. `Head.parse` accepts exactly

    Head := "y" | Name | Name "(" (Name ("," Name)*)? ")"
    Name := Letter Subscript? "'"*
-/

namespace Formulary

inductive Head where
  | parameter (symbol : Symbol)
  | function (symbol : Symbol) (formals : List Name)
  | anonymous
  deriving DecidableEq, Repr

inductive HeadKind where
  | parameter | function | anonymous
  deriving DecidableEq, Repr

def HeadKind.label : HeadKind → Text
  | .parameter => text "parameter"
  | .function => text "function"
  | .anonymous => text "anonymous"

def plotName : Name := ['y']

namespace Head

def kind : Head → HeadKind
  | .parameter _ => .parameter
  | .function .. => .function
  | .anonymous => .anonymous

def name : Head → Name
  | .parameter s => s.name
  | .function s _ => s.name
  | .anonymous => plotName

def formals : Head → List Name
  | .function _ formals => formals
  | _ => []

def symbol? : Head → Option Symbol
  | .parameter s => some s
  | .function s _ => some s
  | .anonymous => none

/-- A kind of token is required next; anything else is reported with where it stands. -/
def expect (source : Text) (kind : TokenKind) (what : String) :
    List Token → Except BindError (Token × List Token)
  | [] => .error (.expected what source none source.length)
  | t :: rest =>
    if t.kind = kind then .ok (t, rest)
    else .error (.expected what source (some t.text) t.position)

def letterWanted : NameRole → String
  | .defined => "a single-letter name"
  | .formal => "a single-letter formal parameter"

def letterRun (last : Token) : List Token → List Token
  | [] => []
  | t :: rest => if t.kind = .letter && t.position = last.stop then t :: letterRun t rest else []

/-- A digit glued to the letter before it: the digits from there on. -/
def gluedDigits? (source : Text) (letter : Token) : List Token → Option Text
  | t :: _ =>
    if t.kind = .other && t.text.all Text.isDigitLike && t.position = letter.stop then
      some ((source.drop t.position).takeWhile Text.isDigitLike)
    else none
  | [] => none

def takePrimes : List Token → Nat × List Token
  | [] => (0, [])
  | t :: rest =>
    if t.kind = .prime then
      let (n, after) := takePrimes rest
      (n + 1, after)
    else (0, t :: rest)

def takeSubscript : List Token → Option Text × List Token
  | [] => (none, [])
  | t :: rest => if t.kind = .subscript then (some t.text, rest) else (none, t :: rest)

def parseName (lex : Lexicon) (source : Text) (role : NameRole) (tokens : List Token) :
    Except BindError (Symbol × List Token) := do
  let (first, rest) ← expect source .letter (letterWanted role) tokens
  let run := letterRun first rest
  if !run.isEmpty then
    let word := (first :: run).flatMap Token.text
    .error (.multiLetter role word (lex.glyph? word))
  else
    match first.text, gluedDigits? source first rest with
    | letter :: _, none =>
      let (subscript, rest) := takeSubscript rest
      let (primes, rest) := takePrimes rest
      return (⟨letter, subscript, primes⟩, rest)
    | letter :: _, some digits =>
      .error (.letterAndDigits role letter digits first.position)
    | [], _ => .error (.expected (letterWanted role) source none first.position)

def parseNames (lex : Lexicon) (source : Text) :
    Nat → List Token → Except BindError (List Symbol × List Token)
  | 0, tokens => .ok ([], tokens)
  | fuel + 1, tokens => do
    match tokens with
    | t :: _ =>
      if t.kind = .comma || t.kind = .rparen then .error (.emptyArgument source t.position)
    | [] => pure ()
    let (s, rest) ← parseName lex source .formal tokens
    match rest with
    | t :: rest' =>
      if t.kind = .comma then
        let (ss, rest) ← parseNames lex source fuel rest'
        return (s :: ss, rest)
      else return ([s], rest)
    | [] => return ([s], rest)

def expectEnd (source : Text) : List Token → Except BindError Unit
  | [] => .ok ()
  | t :: _ => .error (.unexpected t.text source t.position)

/-- Formals are distinct and none is the function itself. -/
def checkFormals (function : Name) (seen : List Name) : List Name → Except BindError Unit
  | [] => .ok ()
  | f :: rest =>
    if seen.contains f then .error (.duplicateFormal f)
    else if f = function then .error (.formalIsFunction f)
    else checkFormals function (f :: seen) rest

def parseFormals (lex : Lexicon) (source : Text) (tokens : List Token) :
    Except BindError (List Symbol × List Token) :=
  match tokens with
  | t :: _ => if t.kind = .rparen then .ok ([], tokens) else
      parseNames lex source (tokens.length + 1) tokens
  | [] => parseNames lex source 1 tokens

def parseTokens (lex : Lexicon) (source : Text) (tokens : List Token) : Except BindError Head := do
  let (symbol, rest) ← parseName lex source .defined tokens
  match rest with
  | [] => return .parameter symbol
  | t :: rest' =>
    if t.kind = .lparen then
      let (formals, rest) ← parseFormals lex source rest'
      let (_, rest) ← expect source .rparen "')'" rest
      expectEnd source rest
      checkFormals symbol.name [] (formals.map Symbol.name)
      return .function symbol (formals.map Symbol.name)
    else
      expectEnd source rest
      return .parameter symbol

/-- Classifies a head whose words were already replaced. -/
def parse (lex : Lexicon) (source : Text) : Except BindError Head := do
  let tokens ← tokens source
  if Text.strip source = plotName then return .anonymous
  parseTokens lex source tokens

/-- Classifies a head on its own; bare words in it are not replaced. -/
def classify (t : Text) : Except BindError Head :=
  parse Lexicon.builtin (Text.strip (Lexicon.builtin.replaceBackslash t))

end Head

end Formulary
