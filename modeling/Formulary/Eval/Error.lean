import Formulary.Eval.Arithmetic
import Formulary.Error
import Formulary.Number.Decimal

/-! # Why a formula has no value

Each failure is kept as its cause with the formula it is about. A failure of arithmetic
that is not reported so stops the evaluation as it is.
-/

namespace Formulary

inductive EvalError where
  | circular (path : List Name)
  | tooDeep
  | noMeaning (function : Name)
  | unreadable (formula : Text)
  | notSingle (formula : Text)
  | undefinedSymbols (formula : Text) (names : List Name)
  | singular (formula : Text)
  | notNumber (formula : Text)
  | notReal (formula : Text)
  | fewPoints
  | emptyRange (min max : Double)
  | stopped (f : Failure)
  deriving DecidableEq, Repr

namespace EvalError

open BindError (commas arrows quote)

/-- The class of a failure; one of arithmetic has none. -/
def code? : EvalError → Option String
  | circular _ => some "CIRCULAR_DEPENDENCY"
  | tooDeep => some "RECURSION_LIMIT"
  | noMeaning _ => some "UNKNOWN_FUNCTION"
  | unreadable _ => some "PARSE_ERROR"
  | notSingle _ | notNumber _ => some "NOT_A_NUMBER"
  | undefinedSymbols .. => some "UNDEFINED_SYMBOL"
  | singular _ => some "DIVISION_BY_ZERO"
  | notReal _ => some "NON_REAL_RESULT"
  | fewPoints | emptyRange .. => some "INVALID_RANGE"
  | stopped _ => none

def message : EvalError → Text
  | circular path => text "Circular function reference: " ++ arrows path
  | tooDeep => text "Function nesting is too deep."
  | noMeaning function =>
    text "Function " ++ quote function ++ text " has no numeric implementation."
  | unreadable formula => text "Failed to parse " ++ quote formula
  | notSingle formula => quote formula ++ text " is not a single expression."
  | undefinedSymbols formula names =>
    text "Undefined symbol(s) in " ++ quote formula ++ text ": " ++ commas names
  | singular formula => quote formula ++ text " is undefined for these values."
  | notNumber formula => quote formula ++ text " did not evaluate to a number."
  | notReal formula => quote formula ++ text " has a non-real value."
  | fewPoints => text "Need at least two sample points."
  | emptyRange min max =>
    text "Empty sampling range [" ++ min.exactText ++ text ", " ++ max.exactText ++ text "]."
  | stopped _ => []

end EvalError

end Formulary
