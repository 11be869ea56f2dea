import Formulary.CommandLine.Switch
import Formulary.Journal.Event
import Formulary.Number.Reading
import Formulary.Report
import Formulary.Session.Dialogue

/-! # Options

What the arguments of the command line ask for, or why they ask for nothing.
-/

namespace Formulary.CommandLine

structure Options where
  definition : Option Text := none
  format : ReportFormat := .human
  complex : Bool := false
  offers : Option Int := none
  version : Bool := false
  logLevel : Level := .warning
  logFile : Option Text := none
  deriving DecidableEq, Repr

/-- Arguments that are answered without running: a request for help, or a wrong use. -/
inductive Halt where
  | help | wrongUse
  deriving DecidableEq, Repr

namespace Options

def formatOf? (t : Text) : Option ReportFormat :=
  if t = text "json" then some .json else if t = text "human" then some .human else none

def levelOf? (t : Text) : Option Level := (Level.ofLabel? t).filter fun l => l != .critical

def orWrong {α : Type} : Option α → Except Halt α
  | some a => .ok a
  | none => .error .wrongUse

/-- Sets what a switch stands for; the last setting counts. -/
def apply (o : Options) (setting : Switch × Text) : Except Halt Options :=
  let (s, v) := setting
  match s with
  | .help => .error .help
  | .version => .ok { o with version := true }
  | .complex => .ok { o with complex := true }
  | .define => .ok { o with definition := some v }
  | .logFile => .ok { o with logFile := some v }
  | .format => (orWrong (formatOf? v)).map fun format => { o with format }
  | .logLevel => (orWrong (levelOf? v)).map fun logLevel => { o with logLevel }
  | .offers => (orWrong (Numeral.int? v)).map fun n => { o with offers := some n }

def read (o : Options) (stray : Bool) : List Argument → Except Halt Options
  | [] => if stray then .error .wrongUse else .ok o
  | .switch s a :: rest =>
    match Found.of? s a rest.head? with
    | none => .error .wrongUse
    | some f =>
      match f.settings.foldlM apply o with
      | .error h => .error h
      | .ok o => read o (stray || f.stray) (rest.drop f.taken.toNat)
  | .value _ :: rest | .separator :: rest | .unknown :: rest | .ambiguous :: rest =>
    read o true rest
termination_by arguments => arguments.length
decreasing_by all_goals (simp only [List.length_cons, List.length_drop]; omega)

/-- A spelling that fits several switches makes all arguments a wrong use. -/
def ofTexts (argv : List Text) : Except Halt Options :=
  let arguments := Argument.ofTexts argv
  if arguments.contains .ambiguous then .error .wrongUse else read {} false arguments

def offered (o : Options) : Nat :=
  match o.offers with
  | some n => if 0 < n then n.toNat else Naming.usualLimit
  | none => Naming.usualLimit

def reading (o : Options) : Reading := { complex := o.complex, offers := o.offered }

end Options

/-! ## The command line

One definition is previewed and judged by the exit code; without one a dialogue is
held over the input.
-/

/-- What a run prints and notes, and its exit code. -/
structure Run where
  exit : Nat
  out : Text
  events : List Event := []
  deriving DecidableEq, Repr

/-- A definition may be given with the prompt of a dialogue before it. -/
def withoutPrompt (definition : Text) : Text :=
  let t := Text.strip definition
  if Text.startsWith t (text ">>>") then Text.strip (t.drop 3) else t

def runDefinition (o : Options) (definition : Text) : Run :=
  let raw := withoutPrompt definition
  let outcome := preview o.reading [] [] raw
  { exit := if outcome.isAccepted then 0 else 1
    out := outcome.report o.format
    events := Trace.preview o.reading [] [] raw }

def run [Arithmetic] (o : Options) (input : Text) : Except Failure Run :=
  if o.version then .ok { exit := 0, out := Session.line Session.version }
  else
    match o.definition with
    | some d => .ok (runDefinition o d)
    | none =>
      (Dialogue.transcript o.format o.reading input).map fun p =>
        { exit := 0, out := p.1, events := p.2 }

def Halt.exit : Halt → Nat
  | .help => 0
  | .wrongUse => 2

end Formulary.CommandLine
