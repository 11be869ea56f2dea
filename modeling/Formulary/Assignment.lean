import Formulary.Bracket

/-! # The equals sign of a definition

An assignment sign is an `=` outside all brackets that is not part of a
comparison. A definition has exactly one, with a name before it.
-/

namespace Formulary.Assignment

/-- `=` after one of these belongs to a comparison. -/
def joinsEquals (prev : Option Char) : Bool :=
  match prev with
  | some c => c == '<' || c == '>' || c == '!' || c == '='
  | none => false

def findFrom (prev : Option Char) (depth i : Nat) : Text → Option Nat
  | [] => none
  | c :: rest =>
    if Bracket.isOpening c then findFrom (some c) (depth + 1) (i + 1) rest
    else if Bracket.isClosing c then findFrom (some c) (depth - 1) (i + 1) rest
    else if c == '=' && depth == 0 && !joinsEquals prev && rest.head? != some '=' then some i
    else findFrom (some c) depth (i + 1) rest

/-- Position of the first assignment sign. -/
def find? (t : Text) : Option Nat := findFrom none 0 0 t

/-- The run of Latin letters that an assignment starts with. -/
def nameSpan? (t : Text) : Option (Nat × Nat) :=
  match find? t with
  | none => none
  | some equals =>
    let head := t.take equals
    let start := (head.takeWhile Text.isBlank).length
    let stop := start + ((head.drop start).takeWhile isLatin).length
    if stop = start then none else some (start, stop)

def split (t : Text) : Except BindError (Text × Text) :=
  match find? t with
  | none => .error .missingEquals
  | some i =>
    let left := Text.strip (t.take i)
    let right := Text.strip (t.drop (i + 1))
    if left.isEmpty then .error (.missingName i)
    else if (find? right).isSome then .error .multipleEquals
    else .ok (left, right)

end Formulary.Assignment
