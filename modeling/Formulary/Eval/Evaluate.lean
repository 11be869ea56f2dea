import Formulary.Eval.Source

/-! # Evaluation

A formula is read with its symbols open, every symbol gets its value, and what is
left is worked out to a number. Only symbols that the formula or a function in it
mentions can matter.
-/

namespace Formulary

inductive Quantity where
  | real (x : Double)
  | complex (re im : Double)
  deriving DecidableEq, Repr

abbrev Scope := List (Name × Double)

namespace Quantity

/-- An imaginary part up to this counts as none. -/
def tolerance : Double := Double.ofDecimal false 1 (-12)

def displayText : Quantity → Text
  | .real x => x.displayText
  | .complex re im =>
    re.displayText ++ [if Double.le Double.zero im then '+' else '-'] ++ im.abs.displayText ++ ['i']

end Quantity

namespace Repertoire

variable [Arithmetic]

/-- The names of open symbols without a value, sorted. -/
def openNames (e : Arithmetic.Expr) (known : List Name) : List Name :=
  let ids := known.map Identifier.ofName
  Text.sort (((Text.dedup (Arithmetic.symbols e)).filter fun id => !ids.contains id).map
    Identifier.name)

def identified (scope : Scope) : List (Text × Double) :=
  scope.map fun p => (Identifier.ofName p.1, p.2)

def compute (e : Arithmetic.Expr) (values : List (Text × Double)) :
    Except Failure Arithmetic.Approx := do
  Arithmetic.approximate (← Arithmetic.substitute e values)

def quantity (complex : Bool) (formula : Text) (v : Arithmetic.Approx) :
    Except EvalError Quantity :=
  if Arithmetic.isUndefined v then .error (.singular formula)
  else
    match Arithmetic.number v with
    | .error f => .error (if f.kind = .operand then .notNumber formula else .stopped f)
    | .ok (re, im) =>
      if Double.lt Quantity.tolerance im.abs then
        if complex then .ok (.complex re im) else .error (.notReal formula)
      else .ok (.real re)

def evaluate (r : Repertoire) (formula : Text) (scope : Scope) : Except EvalError Quantity := do
  let e ← r.read formula
  match openNames e (scope.map (·.1)) with
  | [] => quantity r.complex formula (← (compute e (identified scope)).mapError .stopped)
  | names => .error (.undefinedSymbols formula names)

end Repertoire

end Formulary
