import Formulary.Error
import Formulary.Lexicon.Basic

/-! # Free names

Names close to one that is taken, and the check of a name against those in use:
the next two numbered subscripts, a word as subscript, one more prime.
-/

namespace Formulary

/-- The names in use, with what each is where that is known. -/
abbrev LiveNames := List (Name × Option NameKind)

namespace LiveNames

def contains (live : LiveNames) (name : Name) : Bool := live.any fun p => p.1 == name

def kind? (live : LiveNames) (name : Name) : Option NameKind :=
  (live.find? fun p => p.1 == name).bind (·.2)

def erase (live : LiveNames) (name : Name) : LiveNames := live.filter fun p => p.1 != name

def functions (live : LiveNames) : List Name :=
  (live.filter fun p => p.2 == some .function).map (·.1)

end LiveNames

namespace Naming

def usualLimit : Nat := 4

def primeLimit : Nat := 3

/-- A text with trailing digits, as what precedes them and their value. One line end may follow,
and no line end precedes. -/
def trailingNumber? (t : Text) : Option (Text × Nat) :=
  let t := if t.getLast? == some '\n' then t.dropLast else t
  let front := (t.reverse.dropWhile Text.isDecimal).reverse
  let digits := (t.reverse.takeWhile Text.isDecimal).reverse
  if digits.isEmpty || front.contains '\n' then none
  else some (front, Text.digitsValue digits)

/-- The two numbered subscripts after this one. -/
def nextSubscripts : Option Text → Text × Text
  | none => (['1'], ['2'])
  | some s =>
    match trailingNumber? s with
    | some (front, n) => (front ++ Text.ofNat (n + 1), front ++ Text.ofNat (n + 2))
    | none => (s ++ ['1'], s ++ ['2'])

/-- The word set below a name: `new`, or `alt` where it is `new` already. -/
def tagFor (subscript : Option Text) : Text :=
  if subscript = some (text "new") then text "alt" else text "new"

def variants (s : Symbol) : List Symbol :=
  let (first, second) := nextSubscripts s.subscript
  [⟨s.letter, some first, s.primes⟩, ⟨s.letter, some second, s.primes⟩,
   ⟨s.letter, some (tagFor s.subscript), s.primes⟩] ++
    if s.primes < primeLimit then [⟨s.letter, s.subscript, s.primes + 1⟩] else []

/-- The names close to `candidate`; a text that is no symbol gets the same endings. -/
def options (candidate : Name) : List Name :=
  match Symbol.ofText? candidate with
  | some s => (variants s).map Symbol.name
  | none =>
    [candidate ++ Symbol.subscriptText ['1'], candidate ++ Symbol.subscriptText ['2'],
     candidate ++ Symbol.subscriptText (text "new"), candidate ++ ['\'']]

/-- The first `limit` members; a negative limit leaves out that many at the end. -/
def takeLimit (limit : Int) (names : List Name) : List Name :=
  if 0 ≤ limit then names.take limit.toNat else names.take (names.length - limit.natAbs)

def alternatives (limit : Int) (candidate : Name) : List Name :=
  takeLimit limit (Text.dedup ((options candidate).filter (· ≠ candidate)))

inductive Check where
  | free
  | taken (alternatives : List Name) (kind : Option NameKind)
  deriving DecidableEq, Repr

def check (limit : Int) (live : LiveNames) (candidate : Name) : Check :=
  if live.contains candidate then .taken (alternatives limit candidate) (live.kind? candidate)
  else .free

def collision? (limit : Int) (live : LiveNames) (candidate : Name) : Option BindError :=
  match check limit live candidate with
  | .free => none
  | .taken alternatives kind => some (.taken candidate kind alternatives)

def reservation? (lex : Lexicon) (complex : Bool) (limit : Int) (candidate : Name) :
    Option BindError :=
  if lex.isReserved complex candidate then
    some (.reserved candidate (alternatives limit candidate))
  else none

end Naming

end Formulary
