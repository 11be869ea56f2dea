import Formulary.Number.Decimal
import Formulary.Binding.Plan

/-! # Why a sheet refuses a change

Refusals of the parameter book, the definition book and the sheet that joins them.
-/

namespace Formulary

inductive SheetError where
  | parameterExists (name : Name)
  | notFinite (name : Name)
  | emptyDomain (name : Name) (min max : Double)
  | badStep (name : Name)
  | noParameter (name : Name)
  | outOfDomain (name : Name) (value min max : Double)
  | functionExists (name : Name)
  | cycle (path : List Name)
  | usedAsParameter (name : Name) (arity : Nat) (users : List Name)
  | usedWithArity (name : Name) (was now : Nat) (users : List Name)
  | calledBy (name : Name) (callers : List Text)
  | usedBy (name : Name) (users : List Name)
  | argumentCount (signature : Text) (expected given : Nat)
  | undefined (name : Name)
  | notCallable (name : Name)
  | noFunction (name : Name)
  deriving DecidableEq, Repr

namespace SheetError

open BindError (commas arrows quote)

def code : SheetError → String
  | parameterExists _ => "DUPLICATE_PARAMETER"
  | notFinite _ => "INVALID_VALUE"
  | emptyDomain .. | badStep _ => "INVALID_DOMAIN"
  | noParameter _ => "PARAMETER_NOT_FOUND"
  | outOfDomain .. => "OUT_OF_DOMAIN"
  | functionExists _ => "DUPLICATE_FUNCTION"
  | cycle _ => "CIRCULAR_DEPENDENCY"
  | usedAsParameter .. | calledBy .. | usedBy .. => "IN_USE"
  | usedWithArity .. | argumentCount .. => "WRONG_ARGUMENT_COUNT"
  | undefined _ | noFunction _ => "NOT_FOUND"
  | notCallable _ => "NOT_A_FUNCTION"

def message : SheetError → Text
  | parameterExists name => text "A parameter named " ++ quote name ++ text " already exists."
  | notFinite name => text "Value of " ++ quote name ++ text " must be a finite number."
  | emptyDomain name min max =>
    text "Domain of " ++ quote name ++ text " is empty: min " ++ min.exactText ++ text " > max " ++
      max.exactText ++ text "."
  | badStep name => text "Step of " ++ quote name ++ text " must be positive."
  | noParameter name => text "Parameter " ++ quote name ++ text " is not defined."
  | outOfDomain name value min max =>
    text "Value " ++ value.exactText ++ text " is outside the domain [" ++ min.exactText ++
      text ", " ++ max.exactText ++ text "] of " ++ quote name ++ text "."
  | functionExists name => text "A function named " ++ quote name ++ text " already exists."
  | cycle path => text "Circular dependency: " ++ arrows path
  | usedAsParameter name arity users =>
    text "Cannot turn parameter " ++ quote name ++ text " into a function of " ++
      Text.ofNat arity ++ text " argument(s): used by " ++ commas users ++ text "."
  | usedWithArity name was now users =>
    quote name ++ text " takes " ++ Text.ofNat was ++ text " argument(s) in " ++ commas users ++
      text "; it cannot be redefined with " ++ Text.ofNat now ++ text "."
  | calledBy name callers => quote name ++ text " is called by " ++ commas callers ++ text "."
  | usedBy name users =>
    text "Cannot delete " ++ quote name ++ text ": used by " ++ commas users ++ text "."
  | argumentCount signature expected given =>
    quote signature ++ text " expects " ++ Text.ofNat expected ++
      text " argument(s), but got " ++ Text.ofNat given ++ text " argument(s)."
  | undefined name => quote name ++ text " is not defined."
  | notCallable name => Text.join [' '] (waysOut .function name)
  | noFunction name => text "Function " ++ quote name ++ text " is not defined."

end SheetError

/-- Why saved entries cannot be read back: an entry of the wrong shape, or an id whose trailing
digits have no value. -/
inductive LoadError where
  | badEntry
  | badId
  deriving DecidableEq, Repr

namespace SavedId

def suffix (id : Text) : Text := (id.reverse.takeWhile (· != '-')).reverse

/-- The least counter above the id's trailing number; ids without one ask for nothing. -/
def counterAfter (id : Text) : Except LoadError Nat :=
  let s := suffix id
  if s.isEmpty || !s.all Text.isDigitLike then .ok 0
  else if s.all Text.isDecimal then .ok (Text.digitsValue s + 1)
  else .error .badId

end SavedId

end Formulary
