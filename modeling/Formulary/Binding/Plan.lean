import Formulary.Formula.Symbols
import Formulary.Formula.Token
import Formulary.Head.Basic
import Formulary.Naming
import Formulary.Number.Reading

/-! # Plans

A plan is a definition read and checked against the names in use, with the names
that would have to be created. Planning creates nothing.
-/

namespace Formulary

structure Reading where
  lexicon : Lexicon := Lexicon.builtin
  complex : Bool := false
  maxLength : Nat := 500
  offers : Nat := Naming.usualLimit
  deriving DecidableEq, Repr

inductive Transition where
  | promote | demote
  deriving DecidableEq, Repr

def Transition.label : Transition → Text
  | .promote => text "promote"
  | .demote => text "demote"

structure Plan where
  head : Head
  rhs : Text
  dependencies : List Name
  missing : List Name
  existing : List Name
  calls : List Formula.Call
  transition : Option Transition
  deriving DecidableEq, Repr

def usualVariable : Name := ['x']

/-- Ways out when a name cannot be used as `wanted`. -/
def waysOut (wanted : NameKind) (name : Name) : List Text :=
  match wanted with
  | .parameter =>
    [text "Did you mean to call '" ++ name ++ text "(" ++ usualVariable ++ text ")'?",
     text "Auto-create parameter '" ++ name ++ text "'."]
  | .function =>
    [text "'" ++ name ++ text "' is a parameter; use its value directly or call a function.",
     text "Define a function '" ++ name ++ text "(" ++ usualVariable ++ text ") = ...'."]

namespace Plan

/-- A bare name holds a plain number, or is a function without formals. -/
def settle (head : Head) (rhs : Text) : Head :=
  match head with
  | .parameter s => if Numeral.isNumeral rhs then head else .function s []
  | _ => head

def introduced : Head → List Name
  | .anonymous => []
  | head => head.name :: head.formals

def checkReserved (r : Reading) (head : Head) : Except BindError Unit :=
  match (introduced head).findSome? (Naming.reservation? r.lexicon r.complex r.offers) with
  | some e => .error e
  | none => .ok ()

/-- A live name may only be defined anew as the other kind. -/
def change (r : Reading) (live : LiveNames) (head : Head) :
    Except BindError (Option Transition) :=
  if head.kind = .anonymous || !live.contains head.name then .ok none
  else
    match live.kind? head.name, head.kind with
    | some .parameter, .function => .ok (some .promote)
    | some .function, .parameter => .ok (some .demote)
    | kind, _ =>
      .error (.taken head.name kind (Naming.alternatives r.offers head.name))

/-- The user functions in sight, the one being defined included. -/
def functionNames (live : LiveNames) (arities : Formula.Arities) (head : Head) : List Name :=
  arities.names ++ live.functions ++ if head.kind = .function then [head.name] else []

def finalRhs (r : Reading) (functions : List Name) (head : Head) (rhs : Text) : Text :=
  if head.kind = .parameter then rhs else Formula.withProducts r.lexicon functions rhs

def checkCalls (head : Head) (calls : List Formula.Call) : Except BindError Unit :=
  match Formula.callFaults (calls.filter fun c => c.name != head.name) with
  | [] => .ok ()
  | faults => .error (.wrongArguments faults)

def checkSelf (r : Reading) (functions : List Name) (head : Head) (rhs : Text)
    (dependencies : List Name) : Except BindError Unit :=
  if head.kind ≠ .parameter && (dependencies.contains head.name ||
      (Formula.calledNames r.lexicon functions rhs).contains head.name) then
    .error (.selfReference head.name)
  else .ok ()

/-- The two sides of the text after replacement of words. -/
def sides (r : Reading) (raw : Text) : Except BindError (Text × Text) :=
  if raw.length > r.maxLength then .error (.inputTooLong raw.length r.maxLength)
  else
    let t := Text.strip (r.lexicon.normalize raw)
    if t.isEmpty then .error .emptyInput else Assignment.split t

/-- The head as written, which need not be the head of the plan. -/
def writtenHead (r : Reading) (left : Text) : Except BindError Head := do
  Bracket.require "left-hand side" left
  Head.parse r.lexicon left

def assemble (r : Reading) (live : LiveNames) (arities : Formula.Arities) (head : Head)
    (right : Text) : Except BindError Plan := do
  checkReserved r head
  let transition ← change r live head
  let functions := functionNames live arities head
  let rhs := finalRhs r functions head right
  let calls := Formula.calls r.lexicon arities rhs
  checkCalls head calls
  let dependencies := Formula.freeSymbols r.lexicon r.complex head.formals functions rhs
  checkSelf r functions head rhs dependencies
  return {
    head, rhs, dependencies, calls, transition
    missing := dependencies.filter fun d => !live.contains d
    existing := dependencies.filter fun d => live.contains d }

end Plan

def plan (r : Reading) (live : LiveNames) (arities : Formula.Arities) (raw : Text) :
    Except BindError Plan := do
  let (left, right) ← Plan.sides r raw
  let written ← Plan.writtenHead r left
  if right.isEmpty then .error (.emptyExpression written.name)
  Bracket.require "right-hand side" right
  Plan.assemble r live arities (Plan.settle written right) right

end Formulary
