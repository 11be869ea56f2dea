import Formulary.Text.Printable

/-! # Quoted text

A text in quotes: apostrophes around it, unless it holds apostrophes and no
double quotes. Backslashes and the quote used are escaped, and so is every
character that has no visible form.
-/

namespace Formulary.Text

/-- `n` in hexadecimal, filled up with zeros to `width` digits. -/
def hex (width n : Nat) : Text :=
  let digits := Nat.toDigits 16 n
  List.replicate (width - digits.length) '0' ++ digits

def quoteFor (t : Text) : Char :=
  if t.contains '\'' && !t.contains '"' then '"' else '\''

def quoteChar (quote c : Char) : Text :=
  if c == quote || c == '\\' then ['\\', c]
  else if c == '\n' then text "\\n"
  else if c == '\r' then text "\\r"
  else if c == '\t' then text "\\t"
  else if isPrintable c then [c]
  else if c.toNat < 0x100 then text "\\x" ++ hex 2 c.toNat
  else if c.toNat < 0x10000 then text "\\u" ++ hex 4 c.toNat
  else text "\\U" ++ hex 8 c.toNat

def quoted (t : Text) : Text :=
  let quote := quoteFor t
  [quote] ++ t.flatMap (quoteChar quote) ++ [quote]

end Formulary.Text
