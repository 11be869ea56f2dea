import Formulary.Assignment
import Formulary.Symbol

/-! # The lexicon of built-in names

Written words and commands are replaced by one-letter glyphs; constants and
functions are reserved. Replacement runs in three passes: operator variants, then
backslash commands, then whole words. The name before an equals sign is left as
it was typed.
-/

namespace Formulary

/-- A reserved constant: what the evaluator reads for it, and whether it is the imaginary unit. -/
structure Constant where
  glyph : Name
  imaginary : Bool
  expression : Text
  valued : Bool
  deriving DecidableEq, Repr

structure Lexicon where
  aliases : List (Text × Text)
  bareWords : List (Text × Text)
  constants : List Constant
  functions : List Name
  commands : List (Text × Text)
  deriving DecidableEq, Repr

namespace Lexicon

def lookup? (pairs : List (Text × Text)) (key : Text) : Option Text :=
  (pairs.find? fun p => p.1 == key).map (·.2)

def constant? (lex : Lexicon) (name : Name) : Option Constant :=
  lex.constants.find? fun c => c.glyph == name

/-- The imaginary unit is reserved in complex mode only. -/
def isConstant (lex : Lexicon) (complex : Bool) (name : Name) : Bool :=
  match lex.constant? name with
  | some c => !c.imaginary || complex
  | none => false

def isFunction (lex : Lexicon) (name : Name) : Bool := lex.functions.contains name

def isReserved (lex : Lexicon) (complex : Bool) (name : Name) : Bool :=
  lex.isFunction name || lex.isConstant complex name

def reservedConstants (lex : Lexicon) (complex : Bool) : List Name :=
  (lex.constants.filter fun c => !c.imaginary || complex).map Constant.glyph

def reservedNames (lex : Lexicon) (complex : Bool) : List Name :=
  Text.sort (Text.dedup (lex.reservedConstants complex ++ lex.functions))

/-- The glyph of a command or of a whole word. -/
def glyph? (lex : Lexicon) (word : Text) : Option Text :=
  (lookup? lex.aliases word).or (lookup? lex.bareWords word)

/-- What stands for a key at the front of `t`: a command ends where its letters end, a glyph
name may run on. -/
def fits (t : Text) (key : Text) (wholeWord : Bool) : Bool :=
  key.isPrefixOf t && !(wholeWord && ((t.drop key.length).head?.map isLatin).getD false)

def entries (lex : Lexicon) : List (Text × Text × Bool) :=
  lex.aliases.map (fun p => (p.1, p.2, false)) ++ lex.commands.map (fun p => (p.1, p.2, true))

/-- The longest key at the front of the text, with its replacement. -/
def longest? (lex : Lexicon) (t : Text) : Option (Text × Text) :=
  lex.entries.foldl (fun best e =>
    if fits t e.1 e.2.2 then
      match best with
      | some b => if b.1.length < e.1.length then some (e.1, e.2.1) else best
      | none => some (e.1, e.2.1)
    else best) none

/-- Replaces keys from left to right, `skip` characters of the last key still to be dropped. No
key starts right after a backslash. -/
def replaceFrom (lex : Lexicon) (prev : Option Char) : Nat → Text → Text
  | _, [] =>
    if prev == some '\\' then []
    else match lex.longest? [] with
      | some (_, glyph) => glyph
      | none => []
  | skip + 1, c :: rest => lex.replaceFrom (some c) skip rest
  | 0, c :: rest =>
    if prev == some '\\' then c :: lex.replaceFrom (some c) 0 rest
    else match lex.longest? (c :: rest) with
      | none => c :: lex.replaceFrom (some c) 0 rest
      | some ([], glyph) => glyph ++ c :: lex.replaceFrom (some c) 0 rest
      | some (_ :: more, glyph) => glyph ++ lex.replaceFrom (some c) more.length rest

def replaceBackslash (lex : Lexicon) (t : Text) : Text := lex.replaceFrom none 0 t

def inSpan (span : Option (Nat × Nat)) (i : Nat) : Bool :=
  match span with
  | some (a, b) => a ≤ i && i < b
  | none => false

/-- A run of Latin letters, replaced when it is a known word and not protected. -/
def replaceWord (lex : Lexicon) (isProtected : Bool) (word : Text) : Text :=
  if isProtected then word else (lookup? lex.bareWords word).getD word

/-- Copies the text and replaces words. The run being read is kept reversed with the place where
it began protected or not. -/
def replaceWordsFrom (lex : Lexicon) (skip : Option (Nat × Nat)) (word : Text)
    (isProtected : Bool) (prev : Option Char) (depth i : Nat) : Text → Text
  | [] => lex.replaceWord isProtected word.reverse
  | c :: rest =>
    if isLatin c then
      let guarded := if word.isEmpty then
          decide (0 < depth) || prev == some '\\' || inSpan skip i
        else isProtected
      lex.replaceWordsFrom skip (c :: word) guarded (some c) depth (i + 1) rest
    else
      let depth := if c = '{' then depth + 1 else if c = '}' then depth - 1 else depth
      lex.replaceWord isProtected word.reverse ++
        c :: lex.replaceWordsFrom skip [] false (some c) depth (i + 1) rest

/-- Replaces whole words outside braces, outside the span, and not after a backslash. -/
def replaceWords (lex : Lexicon) (skip : Option (Nat × Nat)) (t : Text) : Text :=
  lex.replaceWordsFrom skip [] false none 0 0 t

/-- Typographic minus signs and dots become the plain operators. -/
def plainOperator (c : Char) : Char :=
  if c == '−' || c == '–' then '-' else if c == '×' || c == '·' then '*' else c

def normalize (lex : Lexicon) (t : Text) : Text :=
  let t := lex.replaceBackslash (t.map plainOperator)
  lex.replaceWords (Assignment.nameSpan? t) t

end Lexicon

end Formulary
