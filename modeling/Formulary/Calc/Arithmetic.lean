import Formulary.Calc.Sample
import Formulary.Calc.Term
import Formulary.Eval.Sample

/-! # The calculator

The arithmetic that formulas are evaluated with. Source texts are read as terms and worked
out to values; numbers are put in for symbols one after another, and an expression without
symbols is worked out to a number.
-/

namespace Formulary

def Scalar.ofDouble : Double → Scalar
  | .finite s m e => .rounded doubleBits (Binary.withSign s m e).trim
  | .infinite s => .infinite s
  | .nan => .undefined

namespace Calculator

def toFront (values : List (Text × Scalar)) (place : Nat) : List (Text × Scalar) :=
  (values[place]?).toList ++ values.eraseIdx place

/-- The places of infinite values, the last first. -/
def infinitePlaces (values : List (Text × Scalar)) : List Nat :=
  ((List.range values.length).filter fun i => (values[i]?).any fun p => !p.2.isFinite).reverse

/-- By identifier, and then for every infinite value, the last first, what stands in its place comes
to the front. A single infinite value so comes first; of several, one may leave its place to a
neighbour. -/
def inTurn (values : List (Text × Scalar)) : List (Text × Scalar) :=
  let sorted := values.mergeSort fun a b => Text.le a.1 b.1
  (infinitePlaces sorted).foldl toFront sorted

def putAll (values : List (Text × Scalar)) (e : Expr) : Expr :=
  values.foldl (fun e p => e.put p.1 p.2) e

/-- A fault that is left once values are put in is the fault of the whole. -/
def settled (e : Expr) : Except Fault Expr :=
  match e with
  | .failed f => .error f
  | e => .ok e

/-- A logical combination of symbols refuses numbers. -/
def substitute (values : List (Text × Scalar)) (v : Value) : Value.Result :=
  match v with
  | .expr e => (settled (putAll values e)).map .expr
  | .relation c a b => do
    Value.relate c (.expr (← settled (putAll values a))) (.expr (← settled (putAll values b)))
  | .formal .badOperand _ => .error .badOperand
  | v => .ok v

/-- What an expression without symbols comes to: nothing that is defined, or a number, if it is
known. -/
structure Result where
  isUndefined : Bool
  number? : Option (Double × Double)
  deriving DecidableEq, Repr

def result (e : Expr) : Result :=
  match e with
  | .num (.infinite s) => ⟨true, some (.infinite s, .zero)⟩
  | e =>
    if e.hasSingular then ⟨true, none⟩
    else
      match e.estimate?.or e.value? with
      | none => ⟨e.isConstant, none⟩
      | some z => ⟨false, some (Sampling.toDouble z.re, Sampling.toDouble z.im)⟩

def approximate : Value → Except Fault Result
  | .expr e => .ok (result e)
  | _ => .error .noNumber

def number (x : Result) : Except Fault (Double × Double) :=
  match x.number? with
  | some z => .ok z
  | none => .error .badOperand

def isSingle : Value → Bool
  | .flag _ | .tuple | .other => false
  | _ => true

def read (s : Setting Routine) (source : Text) : Except Failure (Option Value) :=
  match Term.ofText? source with
  | none => .error ⟨.grammar, []⟩
  | some t => ((Value.ofTerm s t).map fun v => if isSingle v then some v else none).mapError
    Fault.failure

/-- A routine has no two formals of one name. -/
def routine (formals : List Text) (v : Value) : Except Fault Routine :=
  if formals.Nodup then .ok ⟨formals, v⟩ else .error .badOperand

end Calculator

open Calculator in
instance : Arithmetic where
  Expr := Value
  Routine := Routine
  Approx := Calculator.Result
  Curve := Value
  read := read
  symbols v := v.symbols
  routine formals v := (routine formals v).mapError Fault.failure
  free f := f.body.symbols.filter fun id => !f.formals.contains id
  substitute v values :=
    (substitute (inTurn (values.map fun p => (p.1, .ofDouble p.2))) v).mapError Fault.failure
  approximate v := (approximate v).mapError Fault.failure
  isUndefined x := x.isUndefined
  number x := (number x).mapError Fault.failure
  spaced lo hi points := (Sampling.grid lo.toFloat hi.toFloat points).map .ofFloat
  curve _ v := (Sampling.curve v).mapError Fault.failure
  along v xs := ((Sampling.heights v (xs.map Double.toFloat)).map fun ys =>
    ys.map fun y => (.ofFloat y, .zero)).mapError Fault.failure

end Formulary
