import Formulary.Error

/-! # Brackets

`fault?` matches the three kinds of brackets with a stack and points at the first
place where they fail. The other scanners only count: they find the partner of a
round bracket, and the commas that stand outside all brackets.
-/

namespace Formulary.Bracket

def closing? : Char → Option Char
  | '(' => some ')'
  | '[' => some ']'
  | '{' => some '}'
  | _ => none

def isOpening (c : Char) : Bool := c == '(' || c == '[' || c == '{'
def isClosing (c : Char) : Bool := c == ')' || c == ']' || c == '}'

/-- Scans from position `i` with the open brackets and their positions on the stack, the
innermost first. -/
def faultFrom (stack : List (Char × Nat)) (i : Nat) : Text → Option Nat
  | [] => stack.getLast?.map (·.2)
  | c :: rest =>
    if isOpening c then faultFrom ((c, i) :: stack) (i + 1) rest
    else if isClosing c then
      match stack with
      | [] => some i
      | (o, _) :: outer => if closing? o == some c then faultFrom outer (i + 1) rest else some i
    else faultFrom stack (i + 1) rest

/-- Where the brackets fail: a closing one without partner, else the first one never closed. -/
def fault? (t : Text) : Option Nat := faultFrom [] 0 t

def isBalanced (t : Text) : Bool := (fault? t).isNone

def require (side : String) (t : Text) : Except BindError Unit :=
  match fault? t with
  | none => .ok ()
  | some p => .error (.unbalanced side t p)

/-- The pieces between commas at depth 0; `piece` is the one being read, reversed. -/
def splitFrom (piece : Text) (depth : Nat) : Text → List Text
  | [] => [piece.reverse]
  | c :: rest =>
    if c = ',' && depth == 0 then piece.reverse :: splitFrom [] 0 rest
    else if isOpening c then splitFrom (c :: piece) (depth + 1) rest
    else if isClosing c then splitFrom (c :: piece) (depth - 1) rest
    else splitFrom (c :: piece) depth rest

/-- Splits at the commas outside all brackets; a blank text has no parts. -/
def splitCommas (t : Text) : List Text :=
  match (splitFrom [] 0 t).map Text.strip with
  | [[]] => []
  | parts => parts

/-- Position of the bracket that brings the count of round and square ones back to zero. -/
def partnerFrom (depth i : Nat) : Text → Option Nat
  | [] => none
  | c :: rest =>
    if c == '(' || c == '[' then partnerFrom (depth + 1) (i + 1) rest
    else if c == ')' || c == ']' then
      if depth = 1 then some i else partnerFrom (depth - 1) (i + 1) rest
    else partnerFrom depth (i + 1) rest

/-- Partner of the round bracket at `i`. -/
def partner? (t : Text) (i : Nat) : Option Nat := partnerFrom 0 i (t.drop i)

def countArguments (inner : Text) : Nat :=
  if Text.isBlankText inner then 0 else (splitCommas inner).length

/-- The number of arguments of the call whose bracket opens at `i`, and the position behind it; one
never closed runs to the end. -/
def callExtent (t : Text) (i : Nat) : Nat × Nat :=
  match partner? t i with
  | some j => (countArguments (Text.slice t (i + 1) j), j + 1)
  | none => (countArguments (t.drop (i + 1)), t.length)

def argumentCount (t : Text) (i : Nat) : Nat := (callExtent t i).1

end Formulary.Bracket
