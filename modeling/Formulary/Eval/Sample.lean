import Formulary.Eval.Evaluate

/-! # Samples

A formula sampled over a variable at evenly spaced points, all at once if that can be
done, and else point by point. Points without a real value are undefined.
-/

namespace Formulary

namespace Sampling

variable [Arithmetic]

/-- Failures after which points are left undefined. -/
def isPassedOver : Failure.Kind → Bool
  | .operand | .value | .division | .overflow => true
  | _ => false

def pointAt (id : Text) (e : Arithmetic.Expr) (x : Double) : Except Failure (Double × Double) :=
  match (do Arithmetic.number (← Repertoire.compute e [(id, x)])) with
  | .error f => if isPassedOver f.kind then .ok (.nan, .zero) else .error f
  | .ok p => .ok p

def points (id : Text) (xs : List Double) (e : Arithmetic.Expr) :
    Except Failure (List (Double × Double)) := do
  match Arithmetic.along (← Arithmetic.curve id e) xs with
  | .error f => if isPassedOver f.kind then xs.mapM (pointAt id e) else .error f
  | .ok ps => return ps

/-- A point that stands for all of them, unless there is one for each. -/
def spread (count : Nat) (ps : List (Double × Double)) : List (Double × Double) :=
  if ps.length = count then ps else List.replicate count (ps.head?.getD (.nan, .zero))

def realPart (p : Double × Double) : Double :=
  if Double.lt Quantity.tolerance p.2.abs then .nan else p.1

end Sampling

namespace Repertoire

variable [Arithmetic]

/-- The points of a formula over a variable, of which the scope's value is left aside. -/
def sample (r : Repertoire) (formula : Text) (variableName : Name) (scope : Scope) (lo hi : Double)
    (count : Int) : Except EvalError (List Double × List Double) := do
  if count < 2 then throw .fewPoints
  if !Double.lt lo hi then throw (.emptyRange lo hi)
  let e ← { r with complex := false }.read formula
  let fixed := scope.filter fun p => p.1 != variableName
  match openNames e (variableName :: fixed.map (·.1)) with
  | [] =>
    let e ← (Arithmetic.substitute e (identified fixed)).mapError .stopped
    let xs := Arithmetic.spaced lo hi count.toNat
    let ps ← (Sampling.points (Identifier.ofName variableName) xs e).mapError .stopped
    return (xs, (Sampling.spread xs.length ps).map Sampling.realPart)
  | names => throw (.undefinedSymbols formula names)

end Repertoire

end Formulary
