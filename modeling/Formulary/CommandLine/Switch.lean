import Formulary.Text.Basic

/-! # Switches

The switches of the command line and how arguments name them. A long spelling may
be cut short while it fits one switch only; a value follows as the next argument,
after an equals sign, or right after a one-letter spelling.
-/

namespace Formulary.CommandLine

inductive Switch where
  | help | define | format | complex | offers | version | logLevel | logFile
  deriving DecidableEq, Repr

namespace Switch

def all : List Switch := [help, define, format, complex, offers, version, logLevel, logFile]

def letter? : Switch → Option Char
  | help => some 'h'
  | define => some 'e'
  | version => some 'v'
  | format | complex | offers | logLevel | logFile => none

def long : Switch → Text
  | help => text "--help"
  | define => text "--eval"
  | format => text "--format"
  | complex => text "--complex"
  | offers => text "--max-suggestions"
  | version => text "--version"
  | logLevel => text "--log-level"
  | logFile => text "--log-file"

def takesValue : Switch → Bool
  | define | format | offers | logLevel | logFile => true
  | help | complex | version => false

def ofLetter? (c : Char) : Option Switch := all.find? fun s => s.letter? == some c

/-- The switches whose long spelling starts so; a full spelling names its switch alone. -/
def named (t : Text) : List Switch :=
  match all.find? fun s => s.long = t with
  | some s => [s]
  | none => all.filter fun s => Text.startsWith s.long t

end Switch

inductive Attached where
  | nothing
  | glued (t : Text)
  | equal (t : Text)
  deriving DecidableEq, Repr

/-- One argument. After the first `--` all arguments are values. -/
inductive Argument where
  | value (t : Text)
  | switch (s : Switch) (a : Attached)
  | separator
  | unknown
  | ambiguous
  deriving DecidableEq, Repr

namespace Argument

/-- A minus sign with digits, which may have a point before or among them. -/
def isNegativeNumber (t : Text) : Bool :=
  let t := if t.getLast? == some '\n' then t.dropLast else t
  match t with
  | '-' :: digits =>
    let fraction := match digits.dropWhile Text.isDecimal with
      | '.' :: rest => rest
      | _ => digits
    !fraction.isEmpty && fraction.all Text.isDecimal
  | _ => false

def unnamed (t : Text) : Argument :=
  if isNegativeNumber t || t.contains ' ' then .value t else .unknown

def ofLong (t : Text) : Argument :=
  let (spelling, a) := match Text.cut? '=' t with
    | some (spelling, v) => (spelling, Attached.equal v)
    | none => (t, .nothing)
  match Switch.named spelling with
  | [] => unnamed t
  | [s] => .switch s a
  | _ => .ambiguous

def ofShort (t : Text) (c : Char) (rest : Text) : Argument :=
  match Switch.ofLetter? c, rest with
  | none, _ => unnamed t
  | some s, [] => .switch s .nothing
  | some s, '=' :: v => .switch s (.equal v)
  | some s, rest => .switch s (.glued rest)

def ofText (t : Text) : Argument :=
  match t with
  | ['-', '-'] => .separator
  | '-' :: '-' :: _ => ofLong t
  | '-' :: c :: rest => ofShort t c rest
  | _ => .value t

def ofTexts : List Text → List Argument
  | [] => []
  | t :: rest =>
    match ofText t with
    | .separator => .separator :: rest.map .value
    | a => a :: ofTexts rest

end Argument

/-- Switches found in one argument with their values. `stray` says that the argument ends in
something unknown, and `taken` that the next argument was taken as a value. -/
structure Found where
  settings : List (Switch × Text)
  stray : Bool := false
  taken : Bool := false
  deriving DecidableEq, Repr

namespace Found

def alone (s : Switch) : Found := { settings := [(s, [])] }

def before (s : Switch) (f : Found) : Found := { f with settings := (s, []) :: f.settings }

/-- A switch with nothing attached takes its value from the next argument. -/
def following? (s : Switch) (next : Option Argument) : Option Found :=
  if s.takesValue then
    match next with
    | some (.value v) => some { settings := [(s, v)], taken := true }
    | _ => none
  else some (alone s)

def equal? (s : Switch) (v : Text) : Option Found :=
  if s.takesValue then some { settings := [(s, v)] } else none

/-- What is glued to a one-letter switch is its value, or more such switches. -/
def glued? (next : Option Argument) (s : Switch) : Text → Option Found
  | [] => following? s next
  | c :: rest =>
    if s.takesValue then some { settings := [(s, c :: rest)] }
    else if c = '-' then none
    else
      match Switch.ofLetter? c with
      | none => some { settings := [(s, [])], stray := true }
      | some more =>
        (match rest with
          | '=' :: v => equal? more v
          | rest => glued? next more rest).map (before s)

def of? (s : Switch) (a : Attached) (next : Option Argument) : Option Found :=
  match a with
  | .nothing => following? s next
  | .equal v => equal? s v
  | .glued t => glued? next s t

end Found

end Formulary.CommandLine
