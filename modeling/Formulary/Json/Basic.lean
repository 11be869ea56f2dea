import Formulary.Number.Decimal
import Formulary.Text.Quoted

/-! # JSON values

Objects keep their members in written order with one value per key. Integers and
reals are told apart by how they are written. Besides the JSON text a value has a
literal form, used in messages: quoted texts, `True`, `False` and `None`.
-/

namespace Formulary

inductive Json where
  | null
  | bool (b : Bool)
  | int (n : Int)
  | real (x : Double)
  | str (t : Text)
  | arr (items : List Json)
  | obj (members : List (Text × Json))

namespace Json

def field? (key : Text) : List (Text × Json) → Option Json
  | [] => none
  | (k, v) :: rest => if k = key then some v else field? key rest

/-- Sets a member: in place if the key is there, else at the end. -/
def setField (key : Text) (v : Json) : List (Text × Json) → List (Text × Json)
  | [] => [(key, v)]
  | (k, w) :: rest => if k = key then (k, v) :: rest else (k, w) :: setField key v rest

def get? (j : Json) (key : String) : Option Json :=
  match j with
  | .obj ms => field? (text key) ms
  | _ => none

/-- A member that is absent or null counts as absent. -/
def present? (j : Json) (key : String) : Option Json :=
  match j.get? key with
  | some .null => none
  | v => v

/-- Empty texts, arrays and objects, zeros, `false` and `null` count as nothing. -/
def isEmptyValue : Json → Bool
  | .null => true
  | .bool b => !b
  | .int n => n == 0
  | .real (.finite _ m _) => m == 0
  | .real _ => false
  | .str t => t.isEmpty
  | .arr items => items.isEmpty
  | .obj ms => ms.isEmpty

def kindName : Json → String
  | .null => "NoneType"
  | .bool _ => "bool"
  | .int _ => "int"
  | .real _ => "float"
  | .str _ => "str"
  | .arr _ => "list"
  | .obj _ => "dict"

def ofInt (n : Int) : Text := (if n < 0 then ['-'] else []) ++ Text.ofNat n.natAbs

mutual

def literal : Json → Text
  | .null => text "None"
  | .bool b => if b then text "True" else text "False"
  | .int n => ofInt n
  | .real x => x.exactText
  | .str t => Text.quoted t
  | .arr items => '[' :: literalItems items ++ [']']
  | .obj ms => '{' :: literalMembers ms ++ ['}']

def literalItems : List Json → Text
  | [] => []
  | [j] => literal j
  | j :: rest => literal j ++ text ", " ++ literalItems rest

def literalMembers : List (Text × Json) → Text
  | [] => []
  | [(k, j)] => Text.quoted k ++ text ": " ++ literal j
  | (k, j) :: rest => Text.quoted k ++ text ": " ++ literal j ++ text ", " ++ literalMembers rest

end

/-- The form inside running text: a text as it is, anything else in literal form. -/
def plain : Json → Text
  | .str t => t
  | j => literal j

def strings (ts : List Text) : Json := .arr (ts.map .str)

end Json

end Formulary
