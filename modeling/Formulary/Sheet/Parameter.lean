import Formulary.Sheet.Error
import Formulary.Json.Writer

/-! # The parameter book

Named numbers with a domain for their sliders. Names and ids are unique, a value
is finite and lies in its domain, and a value outside the domain asked for widens
it.
-/

namespace Formulary

structure Parameter where
  id : Text
  name : Name
  value : Double
  min : Double
  max : Double
  step : Double
  role : Option Text
  source : Text
  deriving DecidableEq, Repr

namespace Parameter

def independentRole : Text := text "independent"

def userSource : Text := text "user"

def autoSource : Text := text "auto"

def usualValue : Double := Double.ofInt 1

def usualMin : Double := Double.ofInt (-10)

def usualMax : Double := Double.ofInt 10

def usualStep : Double := Double.ofDecimal false 1 (-1)

/-- Plots are drawn over an independent parameter. -/
def isIndependent (p : Parameter) : Bool := p.role == some independentRole

end Parameter

/-- What may be asked of a new parameter besides its name and value. -/
structure ParameterOptions where
  min : Double := Parameter.usualMin
  max : Double := Parameter.usualMax
  step : Double := Parameter.usualStep
  role : Option Text := none
  source : Text := Parameter.userSource
  deriving DecidableEq, Repr

structure ParameterBook where
  entries : List Parameter
  nextId : Nat
  deriving DecidableEq, Repr

namespace ParameterBook

def empty : ParameterBook := ⟨[], 1⟩

def find? (b : ParameterBook) (name : Name) : Option Parameter :=
  b.entries.find? fun p => p.name == name

def get? (b : ParameterBook) (id : Text) : Option Parameter := b.entries.find? fun p => p.id == id

def contains (b : ParameterBook) (name : Name) : Bool := (b.find? name).isSome

def names (b : ParameterBook) : List Name := b.entries.map Parameter.name

/-- Puts an entry in the place of the one with its id, or at the end. -/
def put (p : Parameter) : List Parameter → List Parameter
  | [] => [p]
  | q :: rest => if q.id = p.id then p :: rest else q :: put p rest

def modify (b : ParameterBook) (name : Name) (f : Parameter → Parameter) : ParameterBook :=
  match b.find? name with
  | none => b
  | some p => { b with entries := put (f p) b.entries }

def require (b : ParameterBook) (name : Name) : Except SheetError Parameter :=
  match b.find? name with
  | some p => .ok p
  | none => .error (.noParameter name)

def check (b : ParameterBook) (name : Name) (value : Double) (o : ParameterOptions) :
    Except SheetError Unit :=
  if b.contains name then .error (.parameterExists name)
  else if !value.isFinite then .error (.notFinite name)
  else if Double.lt o.max o.min then .error (.emptyDomain name o.min o.max)
  else if Double.le o.step Double.zero then .error (.badStep name)
  else .ok ()

def idFor (n : Nat) : Text := text "param-" ++ Text.ofNat n

def create (b : ParameterBook) (name : Name) (value : Double) (o : ParameterOptions) :
    Except SheetError (Parameter × ParameterBook) := do
  check b name value o
  let p : Parameter := {
    id := idFor b.nextId, name, value
    min := Double.min o.min value
    max := Double.max o.max value
    step := o.step, role := o.role, source := o.source }
  return (p, ⟨put p b.entries, b.nextId + 1⟩)

def createAuto (b : ParameterBook) (name : Name) : Except SheetError (Parameter × ParameterBook) :=
  b.create name Parameter.usualValue { source := Parameter.autoSource }

def update (b : ParameterBook) (name : Name) (value : Double) :
    Except SheetError ParameterBook := do
  let p ← b.require name
  if !value.isFinite then .error (.notFinite name)
  else if Double.le p.min value && Double.le value p.max then
    return b.modify name fun p => { p with value }
  else .error (.outOfDomain name value p.min p.max)

def setRole (b : ParameterBook) (name : Name) (role : Option Text) :
    Except SheetError ParameterBook := do
  let _ ← b.require name
  return b.modify name fun p => { p with role }

/-- Removes the first entry with the name. -/
def delete (b : ParameterBook) (name : Name) : ParameterBook :=
  match b.find? name with
  | none => b
  | some p => { b with entries := b.entries.filter fun q => q.id != p.id }

def clear (b : ParameterBook) : ParameterBook := { b with entries := [] }

def setValue (name : Name) (value : Double) : List (Name × Double) → List (Name × Double)
  | [] => [(name, value)]
  | (n, v) :: rest =>
    if n = name then (name, value) :: rest else (n, v) :: setValue name value rest

/-- The values by name; of two entries with one name the later counts. -/
def scope (b : ParameterBook) : List (Name × Double) :=
  b.entries.foldl (fun s p => setValue p.name p.value s) []

/-! ### Saving -/

def saveEntry (p : Parameter) : Json :=
  .obj [(text "id", .str p.id), (text "name", .str p.name), (text "value", .real p.value),
    (text "min", .real p.min), (text "max", .real p.max), (text "step", .real p.step),
    (text "role", (p.role.map Json.str).getD .null), (text "source", .str p.source)]

def save (b : ParameterBook) : List Json := b.entries.map saveEntry

def savedKeys : List Text :=
  ["id", "name", "value", "min", "max", "step", "role", "source", "created"].map text

def number? : Json → Option Double
  | .int n => some (Double.ofInt n)
  | .real x => some x
  | .str t => Numeral.double? t
  | _ => none

def numberOr (default : Double) : Option Json → Option Double
  | none => some default
  | some j => number? j

def text? : Json → Option Text
  | .str t => some t
  | _ => none

def entry? (j : Json) : Option Parameter :=
  match j with
  | .obj ms =>
    if ms.all fun m => savedKeys.contains m.1 then do
      let id ← (j.get? "id").bind text?
      let name ← (j.get? "name").bind text?
      let value ← (j.get? "value").bind number?
      let min ← numberOr Parameter.usualMin (j.get? "min")
      let max ← numberOr Parameter.usualMax (j.get? "max")
      let step ← numberOr Parameter.usualStep (j.get? "step")
      let role := (j.present? "role").bind text?
      let source := ((j.get? "source").bind text?).getD Parameter.userSource
      return { id, name, value, min, max, step, role, source }
    else none
  | _ => none

/-- Takes in saved entries one by one and stops at the first that cannot be read. -/
def loadEntries (b : ParameterBook) : List Json → ParameterBook × Option LoadError
  | [] => (b, none)
  | j :: rest =>
    match entry? j with
    | none => (b, some .badEntry)
    | some p =>
      let b := { b with entries := put p b.entries }
      match SavedId.counterAfter p.id with
      | .error e => (b, some e)
      | .ok n => loadEntries { b with nextId := max b.nextId n } rest

/-- Replaces the entries by saved ones; the id counter never goes back. -/
def load (b : ParameterBook) (items : List Json) : ParameterBook × Option LoadError :=
  b.clear.loadEntries items

end ParameterBook

end Formulary
