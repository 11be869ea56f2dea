import Formulary.Text.Quoted

/-! # Identifiers

Names are mapped to identifiers of plain letters, digits and underscores: `s_`,
then each letter and digit as it is and any other character as `_u`, its code point
in hexadecimal, and `_`. Reading back undoes it.
-/

namespace Formulary.Identifier

def isPlain (c : Char) : Bool := c.isAlphanum

def encodeChar (c : Char) : Text :=
  if isPlain c then [c] else text "_u" ++ Text.hex 1 c.toNat ++ ['_']

def encode (t : Text) : Text := t.flatMap encodeChar

def ofName (name : Text) : Text := text "s_" ++ encode name

def isHexDigit (c : Char) : Bool := Text.inRanges c [(0x30, 0x39), (0x61, 0x66)]

def hexDigitValue (c : Char) : Nat := if c.toNat < 0x61 then c.toNat - 0x30 else c.toNat - 0x57

def hexValue (t : Text) : Nat := t.foldl (fun n c => 16 * n + hexDigitValue c) 0

def char? (n : Nat) : Option Char := if h : n.isValidChar then some (Char.ofNatAux n h) else none

/-- A written code point at the front, as its digits, and what follows. -/
def codePoint? (t : Text) : Option (Text × Text) :=
  match t with
  | '_' :: 'u' :: rest =>
    match rest.takeWhile isHexDigit, rest.dropWhile isHexDigit with
    | d :: ds, '_' :: after => some (d :: ds, after)
    | _, _ => none
  | _ => none

theorem length_of_codePoint? {t ds after : Text} (h : codePoint? t = some (ds, after)) :
    after.length < t.length := by
  unfold codePoint? at h
  split at h
  · rename_i rest
    split at h
    · rename_i d ds' after' _ hdrop
      simp only [Option.some.injEq, Prod.mk.injEq] at h
      obtain ⟨_, rfl⟩ := h
      have := (List.dropWhile_sublist (l := rest) isHexDigit).length_le
      simp only [hdrop, List.length_cons] at this ⊢
      omega
    · simp at h
  · simp at h

/-- Reads written code points back; those of no character have no reading. -/
def decode? (t : Text) : Option Text :=
  match _h : codePoint? t with
  | some (ds, after) => do
    let c ← char? (hexValue ds)
    return c :: (← decode? after)
  | none =>
    match t with
    | [] => some []
    | c :: rest => do return c :: (← decode? rest)
termination_by t.length
decreasing_by
  · exact length_of_codePoint? (by assumption)
  · simp

def dropMark (t : Text) : Text := if Text.startsWith t (text "s_") then t.drop 2 else t

def name? (identifier : Text) : Option Text := decode? (dropMark identifier)

def name (identifier : Text) : Text := (name? identifier).getD identifier

end Formulary.Identifier
