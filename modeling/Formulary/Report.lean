import Formulary.Binding.Outcome

/-! # Reports

What is printed of an outcome, as indented JSON or in words. A report reads the
members of an outcome and takes one that is not there for `None`, so that a saved
outcome is reported like a fresh one.
-/

namespace Formulary

inductive ReportFormat where
  | human | json
  deriving DecidableEq, Repr

namespace Report

open BindError (commas)

abbrev Members := List (Text × Json)

def member (key : String) (ms : Members) : Json := (Json.field? (text key) ms).getD .null

def isText (s : String) : Json → Bool
  | .str t => t == text s
  | _ => false

/-- What a member lists: the items of an array, the characters of a text, the keys of an object.
An empty member lists nothing, and any other lists nothing that could be named. -/
def items? : Json → Option (List Json)
  | .arr items => some items
  | .str t => some (t.map fun c => .str [c])
  | .obj ms => some (ms.map fun m => .str m.1)
  | j => if j.isEmptyValue then some [] else none

def text? : Json → Option Text
  | .str t => some t
  | _ => none

def texts? (j : Json) : Option (List Text) := (items? j).bind fun items => items.mapM text?

def line (label : String) (t : Text) : Text := text label ++ t ++ ['\n']

def listLine (label : String) (ts : List Text) : Text :=
  if ts.isEmpty then [] else line label (commas ts)

def refusal? (ms : Members) : Option Text := do
  let suggestions ← texts? (member "suggestions" ms)
  let fixes ← items? (member "fixes" ms)
  return line "Error: " (member "error" ms).plain ++ listLine "Suggestions: " suggestions ++
    fixes.flatMap fun f => line "  Hint: " f.plain

def definition? (ms : Members) : Option Text := do
  let name := (member "name" ms).plain
  let rhs := text " = " ++ (member "rhs" ms).plain
  if isText "parameter" (member "kind" ms) then return line "Parameter " (name ++ rhs)
  else if isText "anonymous" (member "kind" ms) then return line "Plot y" rhs
  else
    let formals ← texts? (member "formal_params" ms)
    let formals := if formals.isEmpty then [] else text "(" ++ commas formals ++ text ")"
    return line "Function " (name ++ formals ++ rhs)

def change (ms : Members) : Text :=
  let name := (member "name" ms).plain
  if isText "promote" (member "transition" ms) then
    line "  Promoted parameter " (name ++ text " to a function")
  else if isText "demote" (member "transition" ms) then
    line "  Demoted function " (name ++ text " to a parameter")
  else []

def acceptance? (ms : Members) : Option Text := do
  let definition ← definition? ms
  let dependencies ← texts? (member "dependencies" ms)
  let created ← texts? (member "created" ms)
  let warnings ← items? (member "warnings" ms)
  return definition ++ change ms ++ listLine "  Depends on: " dependencies ++
    listLine "  Auto-created: " created ++ warnings.flatMap fun w => line "  Warning: " w.plain

/-- The report in words; nothing if a list that it needs is none. -/
def inWords? (ms : Members) : Option Text :=
  if (member "ok" ms).isEmptyValue then refusal? ms else acceptance? ms

def write? (f : ReportFormat) (ms : Members) : Option Text :=
  match f with
  | .human => inWords? ms
  | .json => some ((Json.obj ms).indented 0 ++ ['\n'])

/-! ### Outcomes can be reported -/

theorem items?_strings (ts : List Text) : items? (Json.strings ts) = some (ts.map .str) := rfl

theorem texts?_strings (ts : List Text) : texts? (Json.strings ts) = some ts := by
  rw [texts?, items?_strings, Option.bind_some]
  induction ts with
  | nil => rfl
  | cons t ts ih => simp [text?, ih]

theorem items?_null : items? .null = some [] := rfl

theorem texts?_null : texts? .null = some [] := rfl

theorem isSome_refusal? (r : Refusal) : (refusal? (Outcome.refused r).members).isSome := by
  obtain ⟨message, code, suggestions, fixes⟩ := r
  cases suggestions <;> cases fixes <;>
    simp [refusal?, Outcome.members, Outcome.optional, member, Json.field?, texts?_strings,
      items?_strings, texts?_null, items?_null]

theorem isSome_acceptance? (a : Accepted) : (acceptance? (Outcome.accepted a).members).isSome := by
  obtain ⟨kind, name, rhs, formals, dependencies, created, transition, warnings⟩ := a
  cases kind <;> cases transition <;> cases warnings <;>
    simp [acceptance?, definition?, isText, Outcome.members, Outcome.optional,
      Outcome.transitionMember, member, Json.field?, texts?_strings, items?_strings, items?_null,
      HeadKind.label]

theorem isSome_write? (f : ReportFormat) (o : Outcome) : (write? f o.members).isSome := by
  cases f with
  | json => rfl
  | human =>
    cases o with
    | accepted a => exact isSome_acceptance? a
    | refused r => exact isSome_refusal? r

end Report

def Outcome.report (f : ReportFormat) (o : Outcome) : Text :=
  (Report.write? f o.members).get (Report.isSome_write? f o)

end Formulary
