import Formulary.Json.Basic
import Formulary.Sheet.Basic

/-! # Records

A record of the journal: how grave it is, who wrote it, what it says, and details
by name. Its line gives the details in the order of their names.
-/

namespace Formulary

inductive Level where
  | debug | info | warning | error | critical
  deriving DecidableEq, Repr

namespace Level

def label : Level → Text
  | debug => text "DEBUG"
  | info => text "INFO"
  | warning => text "WARNING"
  | error => text "ERROR"
  | critical => text "CRITICAL"

def rank : Level → Nat
  | debug => 0
  | info => 1
  | warning => 2
  | error => 3
  | critical => 4

def ofLabel? (t : Text) : Option Level :=
  [debug, info, warning, error, critical].find? fun l => l.label = t

end Level

structure Record where
  level : Level
  source : Text
  message : Text
  details : List (Text × Json) := []

namespace Record

/-- A name with this first character is not for the journal. -/
def hiddenMark : Char := '_'

/-- Names that every record has of itself and does not repeat among its details. -/
def ownNames : List Text :=
  ["name", "msg", "args", "levelname", "levelno", "pathname", "filename", "module", "exc_info",
   "exc_text", "stack_info", "lineno", "funcName", "created", "msecs", "relativeCreated",
   "thread", "threadName", "processName", "process", "message", "asctime"].map text

def isShown (name : Text) : Bool := name.head? != some hiddenMark && !ownNames.contains name

def shownDetails (r : Record) : List (Text × Json) :=
  (r.details.filter fun d => isShown d.1).mergeSort fun a b => Text.le a.1 b.1

def detail (d : Text × Json) : Text := d.1 ++ ['='] ++ d.2.literal

def line (r : Record) : Text :=
  text "[" ++ r.level.label ++ text "] " ++ r.source ++ text ": " ++ r.message ++
    r.shownDetails.flatMap fun d => ' ' :: detail d

end Record

/-! ## Events

What the journal notes: steps of reading and binding a definition, and changes of
a sheet. Each event has one record.
-/

inductive Event where
  | severalLetters (role : NameRole) (word : Text)
  | classified (head : Text) (kind : HeadKind)
  | reserved (name : Name)
  | collides (name : Name) (kind : Option NameKind)
  | taken (name : Name) (kind : Option NameKind)
  | planned (p : Plan)
  | bound (kind : HeadKind) (name : Name)
  | rejected (raw : Text) (code : String)
  | requestFailed (name : Name) (reason : Text)
  | ambiguous (rhs : Text) (count : Nat)
  | created (name : Name) (source : Text) (value : Double)
  | deleted (name : Name)
  | takenBack (names : List Name)
  | stored (kind : HeadKind) (signature : Text)
  | notStored (raw : Text) (code : String)
  | drawnOver (id : Text) (axis : Name) (previous : Option Name)
  | cycle (path : List Name)
  | opened (complex : Bool)
  deriving DecidableEq, Repr

namespace Event

open BindError (commas arrows)

/-- A list of texts in round brackets; a single one keeps its comma. -/
def bracketed : List Text → Text
  | [t] => text "(" ++ Text.quoted t ++ text ",)"
  | ts => text "(" ++ commas (ts.map Text.quoted) ++ text ")"

def kindTitle : Option NameKind → Text
  | none => text "None"
  | some .parameter => text "NameKind.PARAMETER"
  | some .function => text "NameKind.FUNCTION"

def optional : Option Text → Json
  | some t => .str t
  | none => .null

def source (part : String) : Text := text "symbinder." ++ text part

def message : Event → Text
  | severalLetters role _ => text "Rejected multi-letter " ++ role.label
  | classified head kind => text "Classified LHS " ++ Text.quoted head ++ text " as " ++ kind.label
  | reserved _ => text "Rejected reserved name"
  | collides name kind =>
    text "Name " ++ Text.quoted name ++ text " collides (kind=" ++ kindTitle kind ++ text ")"
  | taken .. => text "Name collision"
  | planned p =>
    text "Planned " ++ p.head.kind.label ++ text " " ++ Text.quoted p.head.name ++ text ": rhs=" ++
      Text.quoted p.rhs ++ text " dependencies=" ++ bracketed p.dependencies ++
      text " missing=" ++ bracketed p.missing
  | bound kind name => text "Bound " ++ kind.label ++ text " " ++ Text.quoted name
  | rejected .. => text "Binding rejected"
  | requestFailed .. => text "Auto-creation callback failed"
  | ambiguous .. => text "Ambiguous function call"
  | created name source value =>
    text "Created parameter " ++ name ++ text " (" ++ source ++ text ") = " ++ value.exactText
  | deleted name => text "Deleted parameter " ++ name
  | takenBack names => text "Rolled back auto-created parameters: " ++ commas names
  | stored kind signature => text "Stored " ++ kind.label ++ text " " ++ signature
  | notStored .. => text "Definition rejected"
  | drawnOver .. => text "Changed independent variable"
  | cycle _ => text "Dependency cycle detected"
  | opened _ => text "Starting REPL"

def level : Event → Level
  | severalLetters .. | reserved _ | taken .. | rejected .. | ambiguous .. | notStored .. => .info
  | requestFailed .. | cycle _ => .warning
  | classified .. | collides .. | planned _ | bound .. | created .. | deleted _ | takenBack _
  | stored .. | drawnOver .. | opened _ => .debug

def part : Event → String
  | severalLetters .. | classified .. => "parser"
  | reserved _ | collides .. | ambiguous .. => "collision"
  | taken .. | planned _ | bound .. | rejected .. | requestFailed .. => "binder"
  | created .. | deleted _ => "parameters"
  | takenBack _ | stored .. | notStored .. | drawnOver .. => "functions"
  | cycle _ => "dependencies"
  | opened _ => "cli"

def details : Event → List (Text × Json)
  | severalLetters _ word =>
    [(text "word", .str word), (text "suggestion", .str (BindError.wordSymbol word))]
  | reserved name => [(text "symbol", .str name)]
  | taken name kind =>
    [(text "symbol", .str name), (text "conflicting_kind", optional (kind.map NameKind.label))]
  | rejected raw code | notStored raw code =>
    [(text "input", .str raw), (text "code", .str (text code))]
  | requestFailed name reason => [(text "symbol", .str name), (text "error", .str reason)]
  | ambiguous rhs count => [(text "rhs", .str rhs), (text "count", .int count)]
  | drawnOver id axis previous =>
    [(text "function", .str id), (text "variable", .str axis), (text "previous", optional previous)]
  | cycle path => [(text "cycle", .str (arrows path))]
  | opened complex => [(text "complex_mode", .bool complex)]
  | _ => []

def record (e : Event) : Record := ⟨e.level, source e.part, e.message, e.details⟩

/-- The lines of the events that are at least so grave. -/
def lines (least : Level) (events : List Event) : List Text :=
  ((events.map record).filter fun r => least.rank ≤ r.level.rank).map Record.line

end Event

end Formulary
