import Formulary.Eval.Builtin
import Formulary.Eval.Error
import Formulary.Eval.Identifier
import Formulary.Formula.Token
import Formulary.Lexicon.Builtin

/-! # From formulas to expressions

A formula is written out as source text for the arithmetic: names become identifiers,
constants and functions without arguments are written out in brackets, and called
functions are made into routines, each once. The functions being written out form
a stack without repetitions and of bounded height, so that writing out ends.
-/

namespace Formulary

/-- What formulas may use: reserved names, and user functions with formals and right-hand side. -/
structure Repertoire where
  lexicon : Lexicon := Lexicon.builtin
  complex : Bool := false
  functions : List (Name × List Name × Text) := []
  deriving DecidableEq, Repr

namespace Repertoire

def function? (r : Repertoire) (name : Name) : Option (List Name × Text) :=
  (r.functions.find? fun f => f.1 == name).map (·.2)

def functionNames (r : Repertoire) : List Name := r.functions.map (·.1)

def depthLimit : Nat := 32

variable [Arithmetic]

abbrev Bindings := Setting Arithmetic.Routine

/-- Text written so far with what its names refer to. -/
abbrev Written := Except EvalError (Text × Bindings)

def brackets (t : Text) : Text := '(' :: t ++ [')']

def isToldOf : Failure.Kind → Bool
  | .grammar | .operand | .value | .attribute => true
  | _ => false

/-- The expression of a source text; `formula` is the formula it was written from. -/
def interpret (s : Bindings) (formula source : Text) :
    Except EvalError Arithmetic.Expr :=
  match Arithmetic.read s source with
  | .error f => .error (if isToldOf f.kind then .unreadable formula else .stopped f)
  | .ok none => .error (.notSingle formula)
  | .ok (some e) => .ok e

def meet {F : Type} (s : Setting F) (id : Text) : Setting F :=
  if s.symbols.contains id then s else { s with symbols := s.symbols ++ [id] }

def routineId (name : Name) : Text := text "f_" ++ Identifier.ofName name

/-- Goes into a function unless it is being written out already. -/
def enter (active : List Name) (name : Name) (write : Written) : Written :=
  if active.contains name then .error (.circular (active ++ [name])) else write

def writeAtom (r : Repertoire) (active : List Name) (body : Name → Bindings → Text → Written)
    (s : Bindings) (name : Name) : Written :=
  if r.lexicon.isConstant r.complex name then
    .ok (brackets (((r.lexicon.constant? name).map Constant.expression).getD []), s)
  else
    match r.function? name with
    | some ([], rhs) => do
      let (t, s) ← enter active name (body name s rhs)
      return (brackets t, s)
    | _ =>
      let id := Identifier.ofName name
      .ok (id, meet s id)

/-- A called function: a routine, made at its first call, or a built-in one. -/
def writeCall (r : Repertoire) (active : List Name) (body : Name → Bindings → Text → Written)
    (s : Bindings) (name : Name) : Written :=
  match r.function? name with
  | some (formals, rhs) =>
    let id := routineId name
    if (s.routine? id).isSome then .ok (id, s)
    else do
      let (t, s) ← enter active name (body name s rhs)
      let e ← interpret s rhs t
      let made ← (Arithmetic.routine (formals.map Identifier.ofName) e).mapError .stopped
      return (id, { s with routines := s.routines ++ [(id, made)] })
  | none => if (Builtin.ofName? name).isSome then .ok (name, s) else .error (.noMeaning name)

def writeToken (r : Repertoire) (active : List Name) (body : Name → Bindings → Text → Written)
    (s : Bindings) (k : Formula.Token) : Written :=
  match k.kind with
  | .atom => writeAtom r active body s k.text
  | .func => writeCall r active body s k.text
  | .opening => .ok (['('], s)
  | .closing => .ok ([')'], s)
  | .other => .ok (if k.text = ['^'] then text "**" else k.text, s)
  | _ => .ok (k.text, s)

def writeTokens (r : Repertoire) (active : List Name) (body : Name → Bindings → Text → Written) :
    Bindings → List Formula.Token → Written
  | s, [] => .ok ([], s)
  | s, k :: ks => do
    let (t, s) ← writeToken r active body s k
    let (rest, s) ← writeTokens r active body s ks
    return (t ++ rest, s)

/-- The source text of a formula inside the functions `active`; `room` more may be entered. -/
def write (r : Repertoire) : Nat → List Name → Bindings → Text → Written
  | 0, active, s, formula =>
    writeTokens r active (fun _ _ _ => .error .tooDeep) s
      (Formula.tokens r.lexicon r.functionNames formula)
  | room + 1, active, s, formula =>
    writeTokens r active (fun name s rhs => write r room (active ++ [name]) s rhs) s
      (Formula.tokens r.lexicon r.functionNames formula)

def read (r : Repertoire) (formula : Text) : Except EvalError Arithmetic.Expr := do
  let (t, s) ← write r depthLimit [] .empty formula
  interpret s formula t

end Repertoire

end Formulary
