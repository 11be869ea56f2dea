import Formulary.Journal.Event

/-! # Traces

The events of one definition, in order. They are read off what planning, binding
and storing give, and have no say in it.
-/

namespace Formulary.Trace

def planning (r : Reading) (live : LiveNames) (arities : Formula.Arities) (raw : Text) :
    List Event :=
  match Plan.sides r raw with
  | .error _ => []
  | .ok (left, _) =>
    match Plan.writtenHead r left with
    | .error (.multiLetter role word _) => [.severalLetters role word]
    | .error _ => []
    | .ok head =>
      .classified left head.kind :: match plan r live arities raw with
        | .ok p => [.planned p]
        | .error (.reserved name _) => [.reserved name]
        | .error (.taken name kind _) => [.collides name kind, .taken name kind]
        | .error _ => []

def preview (r : Reading) (live : LiveNames) (arities : Formula.Arities) (raw : Text) :
    List Event :=
  planning r live arities raw ++
    match plan r live arities raw with
    | .ok p => [.bound p.head.kind p.head.name]
    | .error e => [.rejected raw e.code]

def creations (names : List Name) : List Event :=
  names.map fun n => .created n Parameter.autoSource Parameter.usualValue

def withdrawal (names : List Name) : List Event :=
  if names.isEmpty then [] else names.map .deleted ++ [.takenBack names]

def requests (p : Plan) : Except BindError (Bound Text) → List Event
  | .ok b => creations b.created ++ [.bound p.head.kind p.head.name]
  | .error (.unresolved [name] created (some reason) _) =>
    creations created ++ [.requestFailed name reason] ++ withdrawal created
  | .error e => creations (Sheet.createdBefore e) ++ withdrawal (Sheet.createdBefore e)

/-- The change from the sheet before storing a plan to the one after it. -/
def storing (p : Plan) (before : Sheet) (change : Sheet.Change) : List Event :=
  let name := p.head.name
  let after := change.2
  let gone := if before.parameters.contains name && !after.parameters.contains name then
    [.deleted name] else []
  let added := match change.1, p.head.kind with
    | .error _, _ => []
    | .ok (), .parameter =>
      if after.parameters.nextId = before.parameters.nextId then []
      else (after.parameters.find? name).toList.map fun q => .created name q.source q.value
    | .ok (), kind =>
      after.definitions.entries.getLast?.toList.map fun d => .stored kind d.signature
  gone ++ added

def ambiguity (s : Sheet) (rhs : Text) : List Event :=
  match s.ambiguities rhs with
  | [] => []
  | warnings => [.ambiguous rhs warnings.length]

def entering (s : Sheet) (raw : Text) (redefine : Bool) : List Event :=
  let c := s.contextFor raw redefine
  let first := if redefine then planning s.reading [] [] raw else []
  first ++ planning s.reading c.live c.arities raw ++
    match plan s.reading c.live c.arities raw with
    | .error e => [.rejected raw e.code]
    | .ok p =>
      let (result, parameters) := Binding.ofPlan (some (Sheet.provider c.live))
        c.live p s.parameters
      requests p result ++ match result with
        | .error _ => []
        | .ok b =>
          let before := { s with parameters }
          let change := Sheet.store before p raw c.replaced
          storing p before change ++ match change.1 with
            | .ok () => ambiguity change.2 p.rhs
            | .error e => withdrawal b.created ++ [.notStored raw e.code]

def deleting (s : Sheet) (key : Text) : List Event :=
  match s.definitions.lookup? key, s.delete key with
  | none, .ok (true, _) => [.deleted key]
  | _, _ => []

def drawingOver (s : Sheet) (key : Text) (axis : Name) : List Event :=
  match s.definitions.lookup? key, s.setVariable key axis with
  | some d, (true, _) => [.drawnOver d.id axis d.independent]
  | _, _ => []

def ordering (s : Sheet) : List Event :=
  match s.order with
  | .ok _ => []
  | .error path => [.cycle path]

end Formulary.Trace
