import Formulary.Journal.Trace
import Formulary.Report
import Formulary.Sheet.Compute
import Formulary.Text.Basic

/-! # Commands

What a line of a session asks for. A line counts as a command only with the right
number of words after it; every other line is a definition.
-/

namespace Formulary

inductive Command where
  | leave
  | help
  | list
  | order
  | evaluate (key : Text) (arguments : List Text)
  | set (name value : Text)
  | delete (key : Text)
  | toggle (key : Text)
  | drawOver (key axis : Text)
  | replace (definition : Text)
  | define (definition : Text)
  deriving DecidableEq, Repr

namespace Command

def ofWords (raw first : Text) (rest : List Text) : Command :=
  match Text.str (Text.lower first), rest with
  | "quit", _ | "exit", _ => .leave
  | "help", [] => .help
  | "list", [] => .list
  | "order", [] => .order
  | "eval", key :: arguments => .evaluate key arguments
  | "set", [name, value] => .set name value
  | "delete", [key] => .delete key
  | "toggle", [key] => .toggle key
  | "variable", [key, axis] => .drawOver key axis
  | "replace", _ :: _ => .replace (Text.strip (raw.drop first.length))
  | _, _ => .define raw

/-- A line without words asks for nothing. -/
def ofLine? (raw : Text) : Option Command :=
  match Text.words raw with
  | [] => none
  | first :: rest => some (ofWords raw first rest)

end Command

/-! ## Sessions

A session runs commands on one sheet. Whatever a command is refused for is part of
what it prints; only a failure of arithmetic that is not reported ends the session.
-/

/-- What a command prints, the sheet after it, and whether the session goes on. -/
structure Turn where
  out : Text := []
  sheet : Sheet
  goesOn : Bool := true
  deriving DecidableEq, Repr

namespace Session

open BindError (arrows quote)

def version : Text := text "0.1.0"

def line (t : Text) : Text := t ++ ['\n']

def complaint (message : Text) : Text := line (text "Error: " ++ message)

def helpText : Text :=
  text "symbinder version " ++ version ++ text "

Definitions (one per line):
  k = 5                  parameter
  f(x) = sin(kx)         function (k is used, missing names are auto-created)
  g = 2a                 function without arguments
  y = x^2                anonymous plot over x
  k_\x7b1\x7d = 3, θ = \\pi/4   subscripts and Greek letters (\\alpha, alpha, α)

Commands:
  list                   show parameters and functions
  order                  show evaluation order
  eval f 2               evaluate a function (or a parameter) at arguments
  set k 3                change a parameter value
  delete k               remove a parameter or function
  toggle f               show or hide a function or plot
  variable plot-1 t      sample a plot over another parameter
  replace f(x) = ...     redefine an existing name
  help                   show this text
  quit, exit             leave
"

def parameterLine (p : Parameter) : Text :=
  line (p.name ++ text " = " ++ p.value.displayText ++ text "  in [" ++ p.min.displayText ++
    text ", " ++ p.max.displayText ++ text "]" ++
    (if p.source = Parameter.autoSource then text " (auto)" else []) ++
    if p.isIndependent then text " [independent]" else [])

def definitionLine (d : Definition) : Text :=
  line ((if d.isAnonymous then d.id else d.signature) ++ text " = " ++ d.rhs ++
    if d.visible then [] else text "  (hidden)")

def emptyMark : Text := text "(empty)"

def listing (s : Sheet) : Text :=
  if s.parameters.entries.isEmpty && s.definitions.entries.isEmpty then line emptyMark
  else s.parameters.entries.flatMap parameterLine ++ s.definitions.entries.flatMap definitionLine

def orderLine (s : Sheet) : Text :=
  match s.order with
  | .ok [] => line emptyMark
  | .ok names => line (arrows names)
  | .error path => complaint (BindError.cycle path).message

/-- The numbers that words denote, or the first word that denotes none. -/
def numbers : List Text → Except Text (List Double)
  | [] => .ok []
  | w :: rest =>
    match Numeral.double? w with
    | none => .error w
    | some x => (numbers rest).map (x :: ·)

def expectedNumbers (reason : Text) : Text := complaint (text "expected numbers: " ++ reason)

def noNumber (word : Text) : Text :=
  expectedNumbers (text "could not convert string to float: " ++ Text.quoted word)

/-- Prints a value, or why there is none. Where evaluation was stopped, only a wrong value is
told. -/
def valueLine : Except ComputeError Quantity → Except Failure Text
  | .ok q => .ok (line q.displayText)
  | .error (.sheet e) => .ok (complaint e.message)
  | .error (.formula (.stopped f)) =>
    if f.kind = .value then .ok (expectedNumbers f.reason) else .error f
  | .error (.formula e) => .ok (complaint e.message)

def evaluate [Arithmetic] (s : Sheet) (key : Text) (arguments : List Text) :
    Except Failure Turn :=
  match numbers arguments with
  | .error word => .ok { out := noNumber word, sheet := s }
  | .ok xs => (valueLine (s.evaluate key xs)).map fun out => { out, sheet := s }

def set (s : Sheet) (name value : Text) : Turn :=
  match Numeral.double? value with
  | none => { out := noNumber value, sheet := s }
  | some x =>
    match s.setValue name x with
    | .ok sheet => { sheet }
    | .error e => { out := complaint e.message, sheet := s }

def undefined (key : Text) : Text := complaint (SheetError.undefined key).message

def delete (s : Sheet) (key : Text) : Turn :=
  match s.delete key with
  | .ok (true, sheet) => { sheet }
  | .ok (false, sheet) => { out := undefined key, sheet }
  | .error e => { out := complaint e.message, sheet := s }

def toggle (s : Sheet) (key : Text) : Turn :=
  let (found, sheet) := s.toggle key
  { out := if found then [] else undefined key, sheet }

def drawOver (s : Sheet) (key axis : Text) : Turn :=
  let (done, sheet) := s.setVariable key axis
  let out := if done then [] else
    complaint (text "cannot plot " ++ quote key ++ text " over " ++ quote axis ++ text ".")
  { out, sheet }

def enter (f : ReportFormat) (s : Sheet) (definition : Text) (redefine : Bool) : Turn :=
  let (outcome, sheet) := s.enter definition redefine
  { out := outcome.report f, sheet }

def run [Arithmetic] (f : ReportFormat) (s : Sheet) : Command → Except Failure Turn
  | .leave => .ok { sheet := s, goesOn := false }
  | .help => .ok { out := line helpText, sheet := s }
  | .list => .ok { out := listing s, sheet := s }
  | .order => .ok { out := orderLine s, sheet := s }
  | .evaluate key arguments => evaluate s key arguments
  | .set name value => .ok (set s name value)
  | .delete key => .ok (delete s key)
  | .toggle key => .ok (toggle s key)
  | .drawOver key axis => .ok (drawOver s key axis)
  | .replace definition => .ok (enter f s definition true)
  | .define definition => .ok (enter f s definition false)

/-- What the journal notes of a command. -/
def events (s : Sheet) : Command → List Event
  | .order => Trace.ordering s
  | .delete key => Trace.deleting s key
  | .drawOver key axis => Trace.drawingOver s key axis
  | .replace definition => Trace.entering s definition true
  | .define definition => Trace.entering s definition false
  | .leave | .help | .list | .evaluate .. | .set .. | .toggle _ => []

end Session

end Formulary
