import Formulary.Binding.Outcome
import Formulary.Graph
import Formulary.Sheet.Definition

/-! # Sheets

A sheet keeps parameters and definitions together with the graph of what refers
to what. A new definition is bound against the names in use; parameters for its
missing names are created with it and go away again if it is refused.
-/

namespace Formulary

structure Sheet where
  reading : Reading
  parameters : ParameterBook
  definitions : DefinitionBook
  graph : Graph
  deriving DecidableEq, Repr

namespace Sheet

def empty (r : Reading) : Sheet := ⟨r, .empty, .empty, .empty⟩

def setKind (live : LiveNames) (name : Name) (kind : NameKind) : LiveNames :=
  DefinitionBook.setKey name (some kind) live

/-- Parameters, then functions; a name that is both counts as a function. -/
def liveNames (s : Sheet) : LiveNames :=
  let live := s.parameters.names.foldl (fun l n => setKind l n .parameter) []
  s.definitions.names.foldl (fun l n => setKind l n .function) live

/-- Parameters are created on request; the names in use stay those at the start. -/
def provider (live : LiveNames) : Provider ParameterBook Text where
  ask name b :=
    match b.createAuto name with
    | .ok (p, b) => (.created p.id, b)
    | .error e => (.failed e.message, b)
  live _ := live

/-- The live name that a text would define anew. -/
def redefined? (s : Sheet) (live : LiveNames) (raw : Text) : Option Name :=
  match plan s.reading [] [] raw with
  | .error _ => none
  | .ok p =>
    if p.head.kind = .anonymous || !live.contains p.head.name then none else some p.head.name

def removeFunction (s : Sheet) (name : Name) (checkCallers : Bool) : Except SheetError Sheet :=
  match s.definitions.find? name with
  | none => .ok s
  | some d =>
    let callers := s.definitions.entries.filter fun o => o.calls.contains name && o.id != d.id
    if checkCallers && !callers.isEmpty then
      .error (.calledBy name (callers.map Definition.signature))
    else .ok { s with definitions := s.definitions.remove d.id, graph := s.graph.erase name }

/-- A step that may be refused, with the sheet it leaves behind in either case. -/
abbrev Change := Except SheetError Unit × Sheet

def resetParameter (s : Sheet) (name : Name) (value : Double) : Sheet :=
  { s with parameters := s.parameters.modify name fun p =>
    { p with value, min := Double.min p.min value, max := Double.max p.max value
             source := Parameter.userSource } }

def createParameter (s : Sheet) (name : Name) (value : Double) : Change :=
  match s.parameters.create name value {} with
  | .ok (_, parameters) => (.ok (), { s with parameters })
  | .error e => (.error e, s)

/-- Stores a number under a name; a function of that name gives way first. -/
def storeParameter (s : Sheet) (p : Plan) (replaced : Option Name) : Change :=
  let name := p.head.name
  let value := (Numeral.double? p.rhs).getD Double.zero
  let cleared :=
    if p.transition = some .demote || s.definitions.contains name then s.removeFunction name true
    else .ok s
  match cleared with
  | .error e => (.error e, s)
  | .ok s =>
    if replaced.isSome && s.parameters.contains name then (.ok (), s.resetParameter name value)
    else s.createParameter name value

/-- A name that others use keeps its number of arguments. -/
def checkUsers (s : Sheet) (name : Name) (arity : Nat) : Except SheetError Unit :=
  let existing := s.definitions.find? name
  let users := Text.sort ((s.graph.users name).filter (· ≠ name))
  match existing with
  | some d =>
    if arity = d.arity || users.isEmpty then .ok ()
    else .error (.usedWithArity name d.arity arity users)
  | none =>
    if !s.parameters.contains name || arity = 0 || users.isEmpty then .ok ()
    else .error (.usedAsParameter name arity users)

def axisFor (p : Plan) : Option Name :=
  match p.head.formals with
  | f :: _ => some f
  | [] =>
    if p.head.kind = .anonymous || p.dependencies.contains usualVariable then some usualVariable
    else none

/-- A parameter that nobody has set becomes independent when something is drawn over it. -/
def markIndependent (b : ParameterBook) (axis : Option Name) (formals : List Name) :
    ParameterBook :=
  match axis with
  | none => b
  | some v =>
    if formals.contains v then b
    else b.modify v fun p =>
      if p.source = Parameter.autoSource then
        { p with role := some Parameter.independentRole }
      else p

def calledNames (s : Sheet) (rhs : Text) : List Name :=
  Text.dedup ((Formula.calls s.reading.lexicon s.definitions.arities rhs).map Formula.Call.name)

def clearName (s : Sheet) (p : Plan) (replaced : Option Name) : Except SheetError Sheet :=
  let name := p.head.name
  let s :=
    if p.transition = some .promote || (replaced.isSome && s.parameters.contains name) then
      { s with parameters := s.parameters.delete name }
    else s
  if replaced.isSome then s.removeFunction name false else .ok s

def storeDefinition (s : Sheet) (p : Plan) (raw : Text) (replaced : Option Name) : Change :=
  let anonymous := p.head.kind = .anonymous
  let calls := s.calledNames p.rhs
  let (id, definitions) := s.definitions.newId anonymous
  let s := { s with definitions }
  let node := if anonymous then id else p.head.name
  let references := p.dependencies ++ calls
  match s.graph.probe node references with
  | some cycle => (.error (.cycle cycle), s)
  | none =>
    match if anonymous then .ok () else s.checkUsers p.head.name p.head.formals.length with
    | .error e => (.error e, s)
    | .ok () =>
      match s.clearName p replaced with
      | .error e => (.error e, s)
      | .ok s =>
        let axis := axisFor p
        let s := { s with parameters := markIndependent s.parameters axis p.head.formals }
        let d : Definition := {
          id, name := p.head.name, kind := p.head.kind, formals := p.head.formals, rhs := p.rhs
          source := Text.strip raw, dependencies := p.dependencies, calls
          independent := axis }
        match s.definitions.add d with
        | .error e => (.error e, s)
        | .ok definitions =>
          (.ok (), { s with definitions, graph := s.graph.insert node references })

def store (s : Sheet) (p : Plan) (raw : Text) (replaced : Option Name) : Change :=
  if p.head.kind = .parameter then s.storeParameter p replaced
  else s.storeDefinition p raw replaced

def rollback (s : Sheet) (created : List Name) : Sheet :=
  { s with parameters := created.foldl ParameterBook.delete s.parameters }

/-- The names that were created before a binding failed. -/
def createdBefore : BindError → List Name
  | .unresolved _ created _ _ => created
  | _ => []

/-- What a definition is bound against: the name that it replaces, and the names in use and the
arities of functions without it. -/
structure Context where
  replaced : Option Name
  live : LiveNames
  arities : Formula.Arities
  deriving DecidableEq, Repr

/-- With `redefine`, a live name that the text defines counts as replaced. -/
def contextFor (s : Sheet) (raw : Text) (redefine : Bool) : Context :=
  let live := s.liveNames
  let replaced := if redefine then s.redefined? live raw else none
  { replaced
    live := (replaced.map live.erase).getD live
    arities := s.definitions.arities.filter fun a => some a.1 != replaced }

def ambiguities (s : Sheet) (rhs : Text) : List Text :=
  Formula.ambiguities s.reading.lexicon s.parameters.names s.definitions.names rhs

/-- Binds a definition and stores it. With `redefine`, a live name is defined anew. -/
def enter (s : Sheet) (raw : Text) (redefine : Bool) : Outcome × Sheet :=
  let e := s.contextFor raw redefine
  match bind s.reading e.live e.arities (some (provider e.live)) raw s.parameters with
  | (.error e, parameters) =>
    (.ofError e, rollback { s with parameters } (createdBefore e))
  | (.ok b, parameters) =>
    match store { s with parameters } b.plan raw e.replaced with
    | (.error e, s) => (.refused ⟨e.message, e.code, [], []⟩, s.rollback b.created)
    | (.ok (), s) => (.ofBound b (s.ambiguities b.plan.rhs), s)

/-! ### Other changes -/

/-- Removes a parameter, function or plot that nothing refers to; `false` if there is none. -/
def delete (s : Sheet) (key : Text) : Except SheetError (Bool × Sheet) :=
  let users (node : Text) (own : Option Text) :=
    (s.graph.users node).filter fun u => some u != own
  match s.definitions.lookup? key with
  | some d =>
    match users d.node (some d.node) with
    | [] =>
      .ok (true, { s with definitions := s.definitions.remove d.id, graph := s.graph.erase d.node })
    | us => .error (.usedBy key (Text.sort us))
  | none =>
    if !s.parameters.contains key then .ok (false, s)
    else
      match users key none with
      | [] => .ok (true, { s with parameters := s.parameters.delete key })
      | us => .error (.usedBy key (Text.sort us))

def toggle (s : Sheet) (key : Text) : Bool × Sheet :=
  match s.definitions.lookup? key with
  | none => (false, s)
  | some d =>
    (true, { s with definitions := s.definitions.replace { d with visible := !d.visible } })

/-- A parameter over which nothing is drawn any more is not independent. -/
def release (s : Sheet) (name : Name) : Sheet :=
  match s.parameters.find? name with
  | none => s
  | some p =>
    if !p.isIndependent then s
    else if s.definitions.entries.any fun d =>
      d.independent == some name && d.formals.isEmpty then s
    else { s with parameters := s.parameters.modify name fun p => { p with role := none } }

/-- Draws a definition over another variable: one of its formals, or for a definition without
formals any parameter. `false` if there is no such definition or variable. -/
def setVariable (s : Sheet) (key : Text) (axis : Name) : Bool × Sheet :=
  match s.definitions.lookup? key with
  | none => (false, s)
  | some d =>
    let allowed :=
      if d.formals.isEmpty then s.parameters.contains axis else d.formals.contains axis
    if !allowed then (false, s)
    else
      let parameters :=
        if d.formals.isEmpty then
          s.parameters.modify axis fun p => { p with role := some Parameter.independentRole }
        else s.parameters
      let s := { s with
        parameters
        definitions := s.definitions.replace { d with independent := some axis } }
      match d.independent with
      | some previous => (true, if previous = axis then s else s.release previous)
      | none => (true, s)

def setValue (s : Sheet) (name : Name) (value : Double) : Except SheetError Sheet :=
  (s.parameters.update name value).map fun parameters => { s with parameters }

def order (s : Sheet) : Except (List Name) (List Name) := s.graph.order

end Sheet

end Formulary
