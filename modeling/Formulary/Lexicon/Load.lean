import Formulary.Json.Reader
import Formulary.Lexicon.Builtin

/-! # Loading a lexicon

A lexicon is written as a JSON object of sections. A missing section keeps the
built-in one; constants are added to the built-in ones. Every glyph that a word
or command gives must be one letter or a constant.
-/

namespace Formulary

inductive LexiconError where
  | notJson
  | notObject
  | sectionKind (name : String) (found : String)
  | sectionTexts (name : String)
  | constantKind (glyph : Text) (found : String)
  | constantClass (glyph : Text) (found : Text)
  | functionNames
  | aliasGlyph (source glyph : Text)
  deriving DecidableEq, Repr

/-- The wording, when the text was JSON at all. -/
def LexiconError.message? : LexiconError → Option Text
  | notJson => none
  | notObject => some (text "Token map '<path>' must be a JSON object")
  | sectionKind name found =>
    some (text "Section '" ++ text name ++ text "' must be an object, got " ++ text found)
  | sectionTexts name =>
    some (text "Section '" ++ text name ++ text "' must map strings to strings")
  | constantKind glyph found =>
    some (text "Constant " ++ Text.quoted glyph ++ text " must be an object, got " ++ text found)
  | constantClass glyph found =>
    some (text "Constant " ++ Text.quoted glyph ++ text " has unknown kind " ++ found)
  | functionNames => some (text "Section 'functions' must be a list of names")
  | aliasGlyph source glyph =>
    some (text "Alias " ++ Text.quoted source ++ text " maps to " ++ Text.quoted glyph ++
      text ", which is not a letter or reserved constant")

namespace Lexicon

def textPair? : Text × Json → Option (Text × Text)
  | (k, .str v) => some (k, v)
  | _ => none

def textSection (j : Json) (name : String) (default : List (Text × Text)) :
    Except LexiconError (List (Text × Text)) :=
  match j.get? name with
  | none => .ok default
  | some (.obj ms) =>
    match ms.mapM textPair? with
    | some pairs => .ok pairs
    | none => .error (.sectionTexts name)
  | some other => .error (.sectionKind name other.kindName)

def constantClass? : Option Json → Option Bool
  | none => some false
  | some (.str t) =>
    if t = text "constant" then some false else if t = text "imaginary" then some true else none
  | _ => none

def constantOf (glyph : Text) (j : Json) : Except LexiconError Constant :=
  match j with
  | .obj _ =>
    match constantClass? (j.get? "kind") with
    | none => .error (.constantClass glyph ((j.get? "kind").getD .null).literal)
    | some imaginary =>
      .ok ⟨glyph, imaginary, ((j.get? "sympy").getD (.str glyph)).plain,
        (j.present? "value").isSome⟩
  | other => .error (.constantKind glyph other.kindName)

/-- A constant takes the place of one with its glyph, or comes last. -/
def addConstant (c : Constant) : List Constant → List Constant
  | [] => [c]
  | d :: rest => if d.glyph = c.glyph then c :: rest else d :: addConstant c rest

def constantSection (j : Json) : Except LexiconError (List Constant) :=
  match j.get? "constants" with
  | none => .ok builtinConstants
  | some (.obj ms) =>
    ms.foldlM (fun cs m => (constantOf m.1 m.2).map fun c => addConstant c cs) builtinConstants
  | some other => .error (.sectionKind "constants" other.kindName)

def nameItem? : Json → Option Name
  | .str t => some t
  | _ => none

def functionSection (j : Json) : Except LexiconError (List Name) :=
  match j.get? "functions" with
  | none => .ok builtin.functions
  | some (.arr items) =>
    match items.mapM nameItem? with
    | some names => .ok names
    | none => .error .functionNames
  | some _ => .error .functionNames

/-- Is the glyph one letter, or a constant? -/
def isGlyph (lex : Lexicon) (glyph : Text) : Bool :=
  isSingle isLetter glyph || (lex.constant? glyph).isSome

def checked (lex : Lexicon) : Except LexiconError Lexicon :=
  match (lex.aliases ++ lex.bareWords).find? fun p => !lex.isGlyph p.2 with
  | some (source, glyph) => .error (.aliasGlyph source glyph)
  | none => .ok lex

def ofJson (j : Json) : Except LexiconError Lexicon := do
  match j with
  | .obj _ =>
    let constants ← constantSection j
    let functions ← functionSection j
    let aliases ← textSection j "aliases" builtin.aliases
    let bareWords ← textSection j "bare_words" builtin.bareWords
    let commands ← textSection j "commands" builtin.commands
    checked ⟨aliases, bareWords, constants, functions, commands⟩
  | _ => .error .notObject

def ofText (t : Text) : Except LexiconError Lexicon :=
  match Json.parse? t with
  | none => .error .notJson
  | some j => ofJson j

/-- The lexicon a text writes, or the built-in one if it writes none. -/
def ofTextOrBuiltin (t : Text) : Lexicon :=
  match ofText t with
  | .ok lex => lex
  | .error _ => builtin

end Lexicon

end Formulary
