import Formulary.Eval.Sample
import Formulary.Sheet.Basic

/-! # Computing with a sheet

Parameters give values to free names, and the sheet's functions are at hand.
Arguments bind the formals of a function, or the variable that a definition
without formals is drawn over.
-/

namespace Formulary

/-- Why a sheet does not compute a value: the request does not fit it, or a formula fails. -/
inductive ComputeError where
  | sheet (e : SheetError)
  | formula (e : EvalError)
  deriving DecidableEq, Repr

namespace Sheet

def repertoire (s : Sheet) : Repertoire where
  lexicon := s.reading.lexicon
  complex := s.reading.complex
  functions := s.definitions.table

def bindValue (scope : Scope) (name : Name) (value : Double) : Scope :=
  ParameterBook.setValue name value scope

/-- The values for a definition: parameters, and arguments over them. -/
def scopeFor (s : Sheet) (d : Definition) (args : List Double) : Except SheetError Scope :=
  if !args.isEmpty && args.length ≠ d.inputs.length then
    .error (.argumentCount d.signature d.inputs.length args.length)
  else
    .ok ((d.inputs.zip args).foldl (fun scope p => bindValue scope p.1 p.2) s.parameters.scope)

variable [Arithmetic]

def evaluate (s : Sheet) (key : Text) (args : List Double) : Except ComputeError Quantity :=
  match s.definitions.lookup? key with
  | some d =>
    match s.scopeFor d args with
    | .error e => .error (.sheet e)
    | .ok scope => (s.repertoire.evaluate d.rhs scope).mapError .formula
  | none =>
    match s.parameters.find? key with
    | none => .error (.sheet (.undefined key))
    | some p => if args.isEmpty then .ok (.real p.value) else .error (.sheet (.notCallable key))

def sampledOver (d : Definition) : Name :=
  d.independent.getD (d.inputs.head?.getD usualVariable)

def sample (s : Sheet) (key : Text) (lo hi : Double) (count : Int) :
    Except ComputeError (List Double × List Double) :=
  match s.definitions.lookup? key with
  | none => .error (.sheet (.noFunction key))
  | some d =>
    (s.repertoire.sample d.rhs (sampledOver d) s.parameters.scope lo hi count).mapError .formula

end Sheet

end Formulary
