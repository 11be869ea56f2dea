import Formulary.Binding.Basic
import Formulary.Json.Writer

/-! # Outcomes

What is reported of one definition: accepted, with what it became, or refused,
with the reason. An outcome is also a list of named members in a fixed order.
-/

namespace Formulary

structure Accepted where
  kind : HeadKind
  name : Name
  rhs : Text
  formals : List Name
  dependencies : List Name
  created : List Name
  transition : Option Transition
  warnings : List Text
  deriving DecidableEq, Repr

structure Refusal where
  message : Text
  code : String
  suggestions : List Name
  fixes : List Text
  deriving DecidableEq, Repr

inductive Outcome where
  | accepted (a : Accepted)
  | refused (r : Refusal)
  deriving DecidableEq, Repr

namespace Outcome

def isAccepted : Outcome → Bool
  | .accepted _ => true
  | .refused _ => false

def ofError (e : BindError) : Outcome := .refused ⟨e.message, e.code, e.suggestions, e.fixes⟩

def ofBound {ι : Type} (b : Bound ι) (warnings : List Text) : Outcome :=
  .accepted {
    kind := b.plan.head.kind
    name := b.plan.head.name
    rhs := b.plan.rhs
    formals := b.plan.head.formals
    dependencies := b.plan.dependencies
    created := b.created
    transition := b.plan.transition
    warnings }

def optional (key : String) (items : List Text) : List (Text × Json) :=
  if items.isEmpty then [] else [(text key, Json.strings items)]

def transitionMember (t : Option Transition) : List (Text × Json) :=
  match t with
  | some t => [(text "transition", .str t.label)]
  | none => []

def members : Outcome → List (Text × Json)
  | .accepted a =>
    [(text "ok", .bool true), (text "kind", .str a.kind.label), (text "name", .str a.name),
     (text "rhs", .str a.rhs)] ++
    (if a.kind = .function then [(text "formal_params", Json.strings a.formals)] else []) ++
    [(text "dependencies", Json.strings a.dependencies),
     (text "created", Json.strings a.created)] ++
    transitionMember a.transition ++ optional "warnings" a.warnings
  | .refused r =>
    [(text "ok", .bool false), (text "error", .str r.message), (text "code", .str (text r.code))] ++
    optional "suggestions" r.suggestions ++ optional "fixes" r.fixes

def describe : Outcome → Text
  | .accepted a =>
    text "BindResult(ok=True, kind=" ++ Text.quoted a.kind.label ++ text ", name=" ++
      Text.quoted a.name ++ text ", rhs=" ++ Text.quoted a.rhs ++
      (if a.dependencies.isEmpty then []
       else text ", dependencies=" ++ (Json.strings a.dependencies).literal) ++ text ")"
  | .refused r =>
    text "BindResult(ok=False, code=" ++ Text.quoted (text r.code) ++ text ", error=" ++
      Text.quoted r.message ++ text ")"

end Outcome

/-- Accepts every request for a name. -/
def Provider.willing (live : LiveNames) : Provider Unit Name where
  ask name s := (.created name, s)
  live _ := live

/-- What a definition would become if every missing name were created. -/
def preview (r : Reading) (live : LiveNames) (arities : Formula.Arities) (raw : Text) : Outcome :=
  match (bind r live arities (some (Provider.willing live)) raw ()).1 with
  | .ok b => Outcome.ofBound b []
  | .error e => Outcome.ofError e

end Formulary
