import Formulary.Binding.Plan

/-! # Binding

A plan is bound by asking for each missing name in turn. Whoever answers keeps a
state of their own, in which the names in use may change with every answer.
-/

namespace Formulary

inductive Reply (ι : Type) where
  | created (id : ι)
  | declined
  | failed (reason : Text)

/-- Answers requests for names; `live` shows the names in use in a state. -/
structure Provider (σ ι : Type) where
  ask : Name → σ → Reply ι × σ
  live : σ → LiveNames

/-- A definition with an id for every name that was created for it. -/
structure Bound (ι : Type) where
  plan : Plan
  resolved : List (Name × ι)

namespace Bound

variable {ι : Type}

def created (b : Bound ι) : List Name := b.resolved.map (·.1)

end Bound

namespace Binding

variable {σ ι : Type}

def unresolved (names created : List Name) (reason : Option Text) (culprit : Name) : BindError :=
  .unresolved names created reason (waysOut .parameter culprit)

/-- Asks for the names in order and stops at the first that is not created. -/
def askAll (p : Provider σ ι) (resolved : List (Name × ι)) :
    List Name → σ → Except BindError (List (Name × ι)) × σ
  | [], s => (.ok resolved, s)
  | name :: rest, s =>
    match p.ask name s with
    | (.created id, s) => askAll p (resolved ++ [(name, id)]) rest s
    | (.declined, s) =>
      (.error (unresolved [name] (resolved.map (·.1)) (some (text "declined")) name), s)
    | (.failed reason, s) =>
      (.error (unresolved [name] (resolved.map (·.1)) (some reason) name), s)

/-- Every dependency was created or is still in use. -/
def finish (plan : Plan) (live : LiveNames) (resolved : List (Name × ι)) :
    Except BindError (Bound ι) :=
  let lost := plan.dependencies.filter fun d =>
    !(resolved.map (·.1)).contains d && !live.contains d
  match lost with
  | [] => .ok ⟨plan, resolved⟩
  | culprit :: _ => .error (unresolved lost (resolved.map (·.1)) none culprit)

/-- Binds a plan; without a provider every missing name is refused. -/
def ofPlan (provider : Option (Provider σ ι)) (live : LiveNames) (plan : Plan) (s : σ) :
    Except BindError (Bound ι) × σ :=
  match provider, plan.missing with
  | none, name :: _ =>
    (.error (unresolved plan.missing [] (some (text "no auto-creation callback")) name), s)
  | none, [] => (finish plan live [], s)
  | some p, missing =>
    match askAll p [] missing s with
    | (.ok resolved, s) => (finish plan (p.live s) resolved, s)
    | (.error e, s) => (.error e, s)

end Binding

def bind {σ ι : Type} (r : Reading) (live : LiveNames) (arities : Formula.Arities)
    (provider : Option (Provider σ ι)) (raw : Text) (s : σ) : Except BindError (Bound ι) × σ :=
  match plan r live arities raw with
  | .error e => (.error e, s)
  | .ok p => Binding.ofPlan provider live p s

end Formulary
