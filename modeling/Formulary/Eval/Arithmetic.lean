import Formulary.Number.Double
import Formulary.Text.Basic

/-! # Arithmetic

Evaluation does no arithmetic itself. It hands source texts to an arithmetic that reads
them as expressions, puts numbers in for symbols, and works expressions out. What an
arithmetic does is left open here; all that evaluation relies on is that it is a function
of what it is given.
-/

namespace Formulary

/-- What kind of failure arithmetic ends in. -/
inductive Failure.Kind where
  | grammar
  | operand
  | value
  | attribute
  | division
  | overflow
  | other (name : Text)
  deriving DecidableEq, Repr

structure Failure where
  kind : Failure.Kind
  reason : Text
  deriving DecidableEq, Repr

/-- What identifiers in a source text refer to: routines, and symbols already met. -/
structure Setting (F : Type) where
  routines : List (Text × F)
  symbols : List Text

namespace Setting

variable {F : Type}

def empty : Setting F := ⟨[], []⟩

def routine? (s : Setting F) (id : Text) : Option F :=
  (s.routines.find? fun r => r.1 == id).map (·.2)

end Setting

/-- Expressions with open symbols, routines made of them, what an expression is worked out to, and
the curve of an expression over a symbol. -/
class Arithmetic where
  Expr : Type
  Routine : Type
  Approx : Type
  Curve : Type
  /-- The expression of a source text, if it is a single one -/
  read : Setting Routine → Text → Except Failure (Option Expr)
  /-- The symbols that are open in an expression -/
  symbols : Expr → List Text
  /-- An expression as a function of some symbols -/
  routine : List Text → Expr → Except Failure Routine
  /-- The symbols that are open in a routine -/
  free : Routine → List Text
  substitute : Expr → List (Text × Double) → Except Failure Expr
  approximate : Expr → Except Failure Approx
  /-- Has it an infinite or undefined part? -/
  isUndefined : Approx → Bool
  /-- The real and the imaginary part -/
  number : Approx → Except Failure (Double × Double)
  /-- Evenly spaced numbers from one end to the other -/
  spaced : Double → Double → Nat → List Double
  curve : Text → Expr → Except Failure Curve
  /-- The points of a curve, all at once -/
  along : Curve → List Double → Except Failure (List (Double × Double))

end Formulary
