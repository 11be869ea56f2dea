import Formulary.Calc.Arithmetic
import Formulary.CommandLine.Basic

/-! # The program

Hands lines to the command line and prints what it gives back. The journal goes to
standard error and to the file that is asked for.
-/

open Formulary CommandLine

namespace Formulary.Program

def say (t : Text) : IO Unit := do
  let out ← IO.getStdout
  out.putStr (Text.str t)
  out.flush

def note (o : Options) (events : List Event) : IO Unit := do
  for l in Event.lines o.logLevel events do
    (← IO.getStderr).putStrLn (Text.str l)
    match o.logFile with
    | some (c :: path) =>
      let file ← IO.FS.Handle.mk ⟨Text.str (c :: path)⟩ .append
      file.putStrLn (Text.str l)
    | _ => pure ()

/-- Ends a run at a failure that no command reports. -/
def giveUp : IO UInt32 := do
  (← IO.getStderr).putStrLn "computation failed"
  return 1

def nextLine? : IO (Option Text) := do
  let line ← (← IO.getStdin).getLine
  return (Dialogue.linesOf line.toList).head?

partial def converse (o : Options) (s : Sheet) : IO UInt32 := do
  say Dialogue.prompt
  match ← nextLine? with
  | none =>
    say Dialogue.silence
    return 0
  | some line =>
    note o (Dialogue.events s line)
    match Dialogue.hear o.format s line with
    | .error _ => giveUp
    | .ok t =>
      say t.out
      if t.goesOn then converse o t.sheet else return 0

def start (o : Options) : IO UInt32 := do
  if !o.version && o.definition.isNone then
    note o [Dialogue.opening o.reading]
    say Dialogue.greeting
    converse o (.empty o.reading)
  else
    match CommandLine.run o [] with
    | .error _ => giveUp
    | .ok r =>
      note o r.events
      say r.out
      return r.exit.toUInt32

end Formulary.Program

def main (argv : List String) : IO UInt32 :=
  match Options.ofTexts (argv.map String.toList) with
  | .ok o => Program.start o
  | .error h => do
    IO.eprintln "usage: symbinder [-h] [-e EVAL] [--format json|human] [--complex]
                 [--max-suggestions N] [-v] [--log-level LEVEL] [--log-file FILE]"
    return h.exit.toUInt32
