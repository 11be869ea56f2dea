import Formulary.Session.Basic

/-! # Dialogues

A session spoken line by line: before each line stands a prompt, blank lines are
passed over, and the last word is said when the session or the input ends.
-/

namespace Formulary.Dialogue

def greeting : Text := Session.line (text "symbinder - type 'help' for commands, 'quit' to exit.")

def prompt : Text := text ">>> "

def farewell : Text := Session.line (text "Goodbye.")

variable [Arithmetic]

def hear (f : ReportFormat) (s : Sheet) (line : Text) : Except Failure Turn :=
  match Command.ofLine? (Text.strip line) with
  | none => .ok { sheet := s }
  | some c =>
    (Session.run f s c).map fun t => { t with out := if t.goesOn then t.out else farewell }

def events (s : Sheet) (line : Text) : List Event :=
  match Command.ofLine? (Text.strip line) with
  | none => []
  | some c => Session.events s c

def silence : Text := '\n' :: farewell

/-- All that is printed and noted from here on. -/
def converse (f : ReportFormat) (s : Sheet) : List Text → Except Failure (Text × List Event)
  | [] => .ok (prompt ++ silence, [])
  | line :: rest => do
    let t ← hear f s line
    let (out, noted) ← if t.goesOn then converse f t.sheet rest else .ok ([], [])
    return (prompt ++ t.out ++ out, events s line ++ noted)

def linesOf (input : Text) : List Text :=
  let pieces := Text.splitOn '\n' input
  if pieces.getLast? = some [] then pieces.dropLast else pieces

def opening (r : Reading) : Event := .opened r.complex

def transcript (f : ReportFormat) (r : Reading) (input : Text) :
    Except Failure (Text × List Event) :=
  (converse f (.empty r) (linesOf input)).map fun p => (greeting ++ p.1, opening r :: p.2)

end Formulary.Dialogue
