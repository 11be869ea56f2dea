import Formulary.Symbol

/-! # Why a definition is refused

Each refusal is kept as its cause. `code` names its class, `message` is its
wording, and `suggestions` and `fixes` are the ways out that go with it.
-/

namespace Formulary

inductive NameKind where
  | parameter
  | function
  deriving DecidableEq, Repr

def NameKind.label : NameKind → Text
  | .parameter => text "parameter"
  | .function => text "function"

inductive NameRole where
  | defined
  | formal
  deriving DecidableEq, Repr

def NameRole.label : NameRole → Text
  | .defined => text "name"
  | .formal => text "formal parameter"

def NameRole.title : NameRole → Text
  | .defined => text "Name"
  | .formal => text "Formal parameter"

/-- A call that does not fit the function it names. -/
inductive CallFault where
  | unknown (name : Name)
  | count (name : Name) (expected given : Nat)
  deriving DecidableEq, Repr

def CallFault.message : CallFault → Text
  | .unknown name => text "Unknown function '" ++ name ++ text "' (not defined)."
  | .count name expected given =>
    text "Function '" ++ name ++ text "' expects " ++ Text.ofNat expected ++
      text " argument(s), but got " ++ Text.ofNat given ++ text " argument(s)."

inductive BindError where
  | inputTooLong (length limit : Nat)
  | emptyInput
  | missingEquals
  | missingName (position : Nat)
  | multipleEquals
  | unbalanced (side : String) (source : Text) (position : Nat)
  | bareSubscript (position : Nat)
  | openSubscript (position : Nat)
  | emptySubscript (position : Nat)
  | expected (what : String) (source : Text) (found : Option Text) (position : Nat)
  | unexpected (found source : Text) (position : Nat)
  | emptyArgument (source : Text) (position : Nat)
  | letterAndDigits (role : NameRole) (letter : Char) (digits : Text) (position : Nat)
  | duplicateFormal (name : Name)
  | formalIsFunction (name : Name)
  | multiLetter (role : NameRole) (word : Text) (glyph : Option Text)
  | emptyExpression (name : Name)
  | reserved (name : Name) (alternatives : List Name)
  | taken (name : Name) (kind : Option NameKind) (alternatives : List Name)
  | wrongArguments (faults : List CallFault)
  | selfReference (name : Name)
  | unresolved (names created : List Name) (reason : Option Text) (fixes : List Text)
  | cycle (path : List Name)
  deriving DecidableEq, Repr

namespace BindError

def commas (names : List Text) : Text := Text.join (text ", ") names

def arrows (names : List Text) : Text := Text.join (text " -> ") names

def quote (t : Text) : Text := '\'' :: t ++ ['\'']

/-- The one-letter name offered for a word: its first letter with the word below. -/
def wordSymbol : Text → Name
  | [] => []
  | c :: rest => c :: Symbol.subscriptText (c :: rest)

/-- The ten characters before a position and the ten from it on. -/
def context (source : Text) (position : Nat) : Text :=
  Text.slice source (position - 10) (position + 10)

/-- The sentence that offers alternatives, with a blank before it. -/
def trySentence (alternatives : List Name) : Text :=
  if alternatives.isEmpty then []
  else text " Try " ++ commas (alternatives.map quote) ++ text "."

def code : BindError → String
  | inputTooLong .. => "INPUT_TOO_LONG"
  | emptyInput => "EMPTY_INPUT"
  | missingEquals => "MISSING_EQUALS"
  | missingName _ => "MISSING_NAME"
  | multipleEquals => "MULTIPLE_EQUALS"
  | unbalanced _ source position =>
    if source[position]? == some '{' || source[position]? == some '}' then "UNBALANCED_BRACES"
    else "UNBALANCED_PARENS"
  | bareSubscript _ => "INVALID_SUBSCRIPT"
  | openSubscript _ => "UNBALANCED_BRACES"
  | emptySubscript _ => "EMPTY_SUBSCRIPT"
  | expected .. => "INVALID_LHS"
  | unexpected .. => "INVALID_LHS"
  | emptyArgument .. => "EMPTY_ARGUMENT"
  | letterAndDigits .. => "INVALID_NAME"
  | duplicateFormal _ => "DUPLICATE_PARAMETER"
  | formalIsFunction _ => "PARAMETER_SHADOWS_FUNCTION"
  | multiLetter .. => "MULTI_LETTER_NAME"
  | emptyExpression _ => "EMPTY_EXPRESSION"
  | reserved .. => "RESERVED_NAME"
  | taken .. => "NAME_COLLISION"
  | wrongArguments _ => "WRONG_ARGUMENT_COUNT"
  | selfReference _ => "SELF_REFERENCE"
  | unresolved .. => "UNRESOLVED_DEPENDENCY"
  | cycle _ => "CIRCULAR_DEPENDENCY"

def message : BindError → Text
  | inputTooLong length limit =>
    text "Input is too long (" ++ Text.ofNat length ++ text " characters, limit " ++
      Text.ofNat limit ++ text ")."
  | emptyInput => text "Input is empty."
  | missingEquals => text "Expected a definition of the form 'name = expression'."
  | missingName _ => text "Missing name before '='."
  | multipleEquals => text "Expression must contain exactly one '=' sign."
  | unbalanced side source position =>
    text "Mismatched or unbalanced brackets in " ++ text side ++ text " at position " ++
      Text.ofNat position ++ text ": ..." ++ context source position ++ text "..."
  | bareSubscript _ => text "Subscripts must be written with braces, e.g. k_\x7b1\x7d."
  | openSubscript _ => text "Unterminated subscript: missing '\x7d'."
  | emptySubscript _ => text "Subscript cannot be empty."
  | expected what source found _ =>
    text "Expected " ++ text what ++ text " in " ++ quote source ++ text ", found " ++
      (found.map quote).getD (text "end of input") ++ text "."
  | unexpected found source _ =>
    text "Unexpected " ++ quote found ++ text " in " ++ quote source ++ text "."
  | emptyArgument source _ => text "Empty argument in " ++ quote source ++ text "."
  | letterAndDigits role letter digits _ =>
    role.title ++ text " " ++ quote (letter :: digits) ++
      text " mixes a letter and digits; write " ++
      quote (letter :: Symbol.subscriptText digits) ++ text "."
  | duplicateFormal name =>
    text "Duplicate parameter " ++ quote name ++ text " in function signature."
  | formalIsFunction name =>
    text "Formal parameter " ++ quote name ++ text " has the same name as the function."
  | multiLetter role word _ =>
    role.title ++ text " " ++ quote word ++
      text " uses more than one letter. " ++
      text "Names are a single letter with an optional subscript; try " ++
      quote (wordSymbol word) ++ text "."
  | emptyExpression name => text "Right-hand side of " ++ quote name ++ text " is empty."
  | reserved name alternatives =>
    quote name ++ text " is a reserved constant and cannot be redefined." ++
      trySentence alternatives
  | taken name (some kind) alternatives =>
    text "A " ++ kind.label ++ text " named " ++ quote name ++ text " already exists." ++
      trySentence alternatives
  | taken name none alternatives =>
    text "The name " ++ quote name ++ text " is already in use." ++ trySentence alternatives
  | wrongArguments faults => Text.join [' '] (faults.map CallFault.message)
  | selfReference name => quote name ++ text " cannot be defined in terms of itself."
  | unresolved names _ reason _ =>
    text "Could not create parameter(s): " ++ commas names ++
      match reason with
      | some r => if r.isEmpty then [] else text " (" ++ r ++ text ")"
      | none => []
  | cycle path => text "Circular dependency: " ++ arrows path

def position? : BindError → Option Nat
  | missingName p | unbalanced _ _ p | bareSubscript p | openSubscript p | emptySubscript p
  | expected _ _ _ p | unexpected _ _ p | emptyArgument _ p | letterAndDigits _ _ _ p => some p
  | _ => none

def suggestions : BindError → List Name
  | multiLetter _ word glyph =>
    wordSymbol word :: glyph.toList.filter (· ≠ wordSymbol word)
  | reserved _ alternatives | taken _ _ alternatives => alternatives
  | _ => []

def fixes : BindError → List Text
  | unresolved _ _ _ fixes => fixes
  | _ => []

end BindError

end Formulary
