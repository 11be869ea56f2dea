import Formulary.Json.Basic

/-! # Writing JSON

Two layouts: one line, or one member per line with two blanks of indentation.
Characters beyond ASCII are written as they are.
-/

namespace Formulary.Json

def escapeChar (c : Char) : Text :=
  if c == '"' || c == '\\' then ['\\', c]
  else if c == '\n' then text "\\n"
  else if c == '\r' then text "\\r"
  else if c == '\t' then text "\\t"
  else if c.toNat = 8 then text "\\b"
  else if c.toNat = 12 then text "\\f"
  else if c.toNat < 32 then text "\\u" ++ Text.hex 4 c.toNat
  else [c]

def writeText (t : Text) : Text := ['"'] ++ t.flatMap escapeChar ++ ['"']

def writeReal : Double → Text
  | .nan => text "NaN"
  | .infinite s => if s then text "-Infinity" else text "Infinity"
  | x => x.exactText

mutual

def compact : Json → Text
  | .null => text "null"
  | .bool b => if b then text "true" else text "false"
  | .int n => ofInt n
  | .real x => writeReal x
  | .str t => writeText t
  | .arr items => '[' :: compactItems items ++ [']']
  | .obj ms => '{' :: compactMembers ms ++ ['}']

def compactItems : List Json → Text
  | [] => []
  | [j] => compact j
  | j :: rest => compact j ++ text ", " ++ compactItems rest

def compactMembers : List (Text × Json) → Text
  | [] => []
  | [(k, j)] => writeText k ++ text ": " ++ compact j
  | (k, j) :: rest => writeText k ++ text ": " ++ compact j ++ text ", " ++ compactMembers rest

end

def newline (depth : Nat) : Text := '\n' :: List.replicate (2 * depth) ' '

mutual

def indented (depth : Nat) : Json → Text
  | .null => text "null"
  | .bool b => if b then text "true" else text "false"
  | .int n => ofInt n
  | .real x => writeReal x
  | .str t => writeText t
  | .arr [] => text "[]"
  | .arr (j :: rest) =>
    '[' :: newline (depth + 1) ++ indentedItems (depth + 1) (j :: rest) ++ newline depth ++ [']']
  | .obj [] => ['{', '}']
  | .obj (m :: rest) =>
    '{' :: newline (depth + 1) ++ indentedMembers (depth + 1) (m :: rest) ++ newline depth ++ ['}']

def indentedItems (depth : Nat) : List Json → Text
  | [] => []
  | [j] => indented depth j
  | j :: rest => indented depth j ++ [','] ++ newline depth ++ indentedItems depth rest

def indentedMembers (depth : Nat) : List (Text × Json) → Text
  | [] => []
  | [(k, j)] => writeText k ++ text ": " ++ indented depth j
  | (k, j) :: rest =>
    writeText k ++ text ": " ++ indented depth j ++ [','] ++ newline depth ++
      indentedMembers depth rest

end

end Formulary.Json
