import Formulary.Text.Basic

/-! # Letters

A name starts with one Latin or Greek letter. Greek covers the basic block and
the five variant letters.
-/

namespace Formulary

def isLatin (c : Char) : Bool := ('a' ≤ c && c ≤ 'z') || ('A' ≤ c && c ≤ 'Z')

def isGreek (c : Char) : Bool :=
  (0x391 ≤ c.toNat && c.toNat ≤ 0x3A9 && c.toNat != 0x3A2) ||
    (0x3B1 ≤ c.toNat && c.toNat ≤ 0x3C9) ||
    c == 'ϑ' || c == 'ϕ' || c == 'ϖ' || c == 'ϱ' || c == 'ϵ'

def isLetter (c : Char) : Bool := isLatin c || isGreek c

/-- A text of exactly one character of the class. -/
def isSingle (p : Char → Bool) : Text → Bool
  | [c] => p c
  | _ => false

/-! ## Symbols

A symbol is one letter with an optional subscript and prime marks. Its spelling,
such as `k`, `k_{1}` or `x'`, is the name under which everything is kept.
-/

abbrev Name := Text

structure Symbol where
  letter : Char
  subscript : Option Text
  primes : Nat
  deriving DecidableEq, Repr

namespace Symbol

def subscriptText (content : Text) : Text := '_' :: '{' :: content ++ ['}']

def name (s : Symbol) : Name :=
  s.letter :: ((s.subscript.map subscriptText).getD [] ++ List.replicate s.primes '\'')

def primes? (t : Text) : Option Nat := if t.all (· == '\'') then some t.length else none

/-- The symbol that a text spells, blanks around it dropped. -/
def ofText? (t : Text) : Option Symbol :=
  match Text.strip t with
  | [] => none
  | letter :: rest =>
    if isLetter letter then
      match rest with
      | '_' :: '{' :: body =>
        match Text.cut? '}' body with
        | none => none
        | some (content, rest) =>
          if content.isEmpty then none
          else (primes? rest).map fun n => ⟨letter, some content, n⟩
      | _ => (primes? rest).map fun n => ⟨letter, none, n⟩
    else none

end Symbol

end Formulary
