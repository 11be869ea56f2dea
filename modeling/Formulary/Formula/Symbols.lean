import Formulary.Error
import Formulary.Formula.Token

/-! # What a formula refers to

Its free symbols, its calls, and calls whose argument could mean two things.
-/

namespace Formulary.Formula

/-- The names of a formula that are neither bound nor reserved, each once, in order. -/
def freeSymbols (lex : Lexicon) (complex : Bool) (bound functions : List Name) (t : Text) :
    List Name :=
  let atoms := ((tokens lex functions t).filter fun k => k.kind = .atom).map Token.text
  Text.dedup (atoms.filter fun a => !bound.contains a && !lex.isConstant complex a)

/-- A call of a function that is not built in; no arity is known for some. -/
structure Call where
  name : Name
  given : Nat
  expected : Option Nat
  position : Nat
  deriving DecidableEq, Repr

abbrev Arities := List (Name × Nat)

def Arities.get? (arities : Arities) (name : Name) : Option Nat :=
  (arities.find? fun p => p.1 == name).map (·.2)

def Arities.names (arities : Arities) : List Name := arities.map (·.1)

def callOf? (lex : Lexicon) (arities : Arities) (t : Text) (k : Token) : Option Call :=
  if k.kind = .func && !lex.isFunction k.text then
    (Text.find? t '(' (k.position + k.text.length)).map fun opening =>
      ⟨k.text, Bracket.argumentCount t opening, arities.get? k.text, k.position⟩
  else none

/-- The calls of the functions named, of which some have a known arity. -/
def callsAmong (lex : Lexicon) (functions : List Name) (arities : Arities) (t : Text) :
    List Call :=
  (tokens lex functions t).filterMap (callOf? lex arities t)

def calls (lex : Lexicon) (arities : Arities) (t : Text) : List Call :=
  callsAmong lex arities.names arities t

def Call.fault? (c : Call) : Option CallFault :=
  match c.expected with
  | none => some (.unknown c.name)
  | some n => if c.given = n then none else some (.count c.name n c.given)

def callFaults (cs : List Call) : List CallFault := cs.filterMap Call.fault?

def calledNames (lex : Lexicon) (functions : List Name) (t : Text) : List Name :=
  ((tokens lex functions t).filter fun k => k.kind = .func).map Token.text

def ambiguityWarning (function argument : Name) : Text :=
  text "Ambiguous call '" ++ function ++ text "(" ++ argument ++ text ")': '" ++ argument ++
    text "' is both a parameter and a function. The parameter value is used; write '" ++
    function ++ text "(" ++ argument ++ text "(x))' to call the function."

/-- Warns about calls whose whole argument names a parameter and a function at once. -/
def ambiguities (lex : Lexicon) (parameters functions : List Name) (t : Text) : List Text :=
  (tokens lex functions t).filterMap fun k => do
    if k.kind ≠ .func then none
    let opening ← Text.find? t '(' (k.position + k.text.length)
    let closing ← Bracket.partner? t opening
    let argument := Text.strip (Text.slice t (opening + 1) closing)
    if parameters.contains argument && functions.contains argument then
      some (ambiguityWarning k.text argument)
    else none

end Formulary.Formula
