import Formulary.Eval.Identifier
import Formulary.Proofs.Eval.Word

/-! # Names as identifiers

An identifier is a word of letters, digits and underscores, and the codes of
characters are such that none begins another. So the name that an identifier was made
from is read back, and one that goes on behind another goes on behind its name.
-/

namespace Formulary.Identifier

open Text (isIdentRest)

variable {c d : Char} {a t u x y ds : Text} {n : Nat}

/-! ### Hexadecimal digits -/

theorem isHexDigit_digitChar (h : n < 16) :
    isHexDigit n.digitChar = true ∧ hexDigitValue n.digitChar = n := by
  revert n
  decide

theorem isHexDigit_of_mem_toDigits (hc : c ∈ Nat.toDigits 16 n) : isHexDigit c = true := by
  induction n using Nat.strong_induction_on with
  | _ n ih =>
    rw [Nat.toDigits_eq_if (by decide)] at hc
    split at hc
    case isTrue hn =>
      obtain rfl := List.mem_singleton.mp hc
      exact (isHexDigit_digitChar hn).1
    case isFalse hn =>
      rcases List.mem_append.mp hc with hc | hc
      · exact ih (n / 16) (by omega) hc
      · obtain rfl := List.mem_singleton.mp hc
        exact (isHexDigit_digitChar (Nat.mod_lt n (by decide))).1

theorem hexValue_toDigits (n : Nat) : hexValue (Nat.toDigits 16 n) = n := by
  induction n using Nat.strong_induction_on with
  | _ n ih =>
    rw [Nat.toDigits_eq_if (by decide)]
    split
    case isTrue hn => simp [hexValue, (isHexDigit_digitChar hn).2]
    case isFalse hn =>
      have hdigit := (isHexDigit_digitChar (Nat.mod_lt n (show 0 < 16 by decide))).2
      have hfront := ih (n / 16) (by omega)
      rw [hexValue] at hfront ⊢
      rw [List.foldl_append, hfront]
      simp only [List.foldl_cons, List.foldl_nil, hdigit]
      omega

theorem hex_one (n : Nat) : Text.hex 1 n = Nat.toDigits 16 n := by
  have hlength : 1 - (Nat.toDigits 16 n).length = 0 := Nat.sub_eq_zero_of_le Nat.length_toDigits_pos
  simp [Text.hex, hlength]

/-! ### Codes of characters -/

theorem encodeChar_of_plain (h : isPlain c = true) : encodeChar c = [c] := if_pos h

theorem encodeChar_of_not_plain (h : isPlain c = false) :
    encodeChar c = '_' :: 'u' :: (Nat.toDigits 16 c.toNat ++ ['_']) := by
  rw [encodeChar, if_neg (by simp [h]), hex_one]
  rfl

theorem stops_underscore : Text.Stops isHexDigit ('_' :: x) := by
  intro c hc
  obtain rfl : '_' = c := by simpa using hc
  decide

/-- No code begins another. -/
theorem encodeChar_append_inj (h : encodeChar c ++ x = encodeChar d ++ y) : c = d ∧ x = y := by
  have hmark : isPlain '_' = false := by decide
  cases hc : isPlain c <;> cases hd : isPlain d
  · rw [encodeChar_of_not_plain hc, encodeChar_of_not_plain hd] at h
    have h : Nat.toDigits 16 c.toNat ++ '_' :: x = Nat.toDigits 16 d.toNat ++ '_' :: y := by
      simpa using h
    have hdigits := congrArg (List.takeWhile isHexDigit) h
    rw [Text.takeWhile_append_stop (fun _ => isHexDigit_of_mem_toDigits) stops_underscore,
      Text.takeWhile_append_stop (fun _ => isHexDigit_of_mem_toDigits) stops_underscore] at hdigits
    have hcode : c.toNat = d.toNat := by
      rw [← hexValue_toDigits c.toNat, hdigits, hexValue_toDigits]
    rw [hdigits] at h
    exact ⟨Char.toNat_inj.mp hcode, by simpa using h⟩
  · rw [encodeChar_of_not_plain hc, encodeChar_of_plain hd] at h
    obtain ⟨rfl, -⟩ := List.cons.inj h
    simp [hmark] at hd
  · rw [encodeChar_of_plain hc, encodeChar_of_not_plain hd] at h
    obtain ⟨rfl, -⟩ := List.cons.inj h
    simp [hmark] at hc
  · rw [encodeChar_of_plain hc, encodeChar_of_plain hd] at h
    exact List.cons.inj h

theorem encode_cons : encode (c :: t) = encodeChar c ++ encode t := rfl

theorem encodeChar_ne_nil : encodeChar c ≠ [] := by
  cases hc : isPlain c
  · simp [encodeChar_of_not_plain hc]
  · simp [encodeChar_of_plain hc]

/-- What goes on behind a code goes on behind its text. -/
theorem eq_append_of_encode (h : encode a ++ x = encode t) : ∃ u, t = a ++ u ∧ x = encode u := by
  induction a generalizing t with
  | nil => exact ⟨t, rfl, h⟩
  | cons c a ih =>
    cases t with
    | nil => simp [encode, encodeChar_ne_nil] at h
    | cons d t =>
      rw [encode_cons, encode_cons, List.append_assoc] at h
      obtain ⟨rfl, hrest⟩ := encodeChar_append_inj h
      obtain ⟨u, rfl, hx⟩ := ih hrest
      exact ⟨u, rfl, hx⟩

/-- A code begins with a letter or digit, or else with the marks of an escape. -/
theorem head_of_encode (h : encode t = d :: u) :
    isPlain d = true ∨ d = '_' ∧ u.head? = some 'u' := by
  cases t with
  | nil => simp [encode] at h
  | cons c t =>
    rw [encode_cons] at h
    cases hc : isPlain c with
    | true =>
      rw [encodeChar_of_plain hc] at h
      obtain ⟨rfl, -⟩ := List.cons.inj h
      exact Or.inl hc
    | false =>
      rw [encodeChar_of_not_plain hc] at h
      obtain ⟨rfl, rfl⟩ := List.cons.inj h
      exact Or.inr ⟨rfl, rfl⟩

/-! ### Identifiers are words -/

theorem isPlain_of_isHexDigit (h : isHexDigit c = true) : isPlain c = true := by
  have hall : ∀ n ∈ List.range 128, isHexDigit (Char.ofNat n) = true →
      isPlain (Char.ofNat n) = true := by
    decide +kernel
  have hn : c.toNat < 128 := by
    simp only [isHexDigit, Text.inRanges, List.any_cons, List.any_nil, Bool.or_eq_true,
      Bool.and_eq_true, decide_eq_true_eq, Bool.or_false] at h
    omega
  have hplain := hall c.toNat (List.mem_range.mpr hn)
  rw [Char.ofNat_toNat] at hplain
  exact hplain h

theorem plain_or_underscore_of_mem_encode (h : c ∈ encode t) : isPlain c = true ∨ c = '_' := by
  obtain ⟨d, -, hc⟩ := List.mem_flatMap.mp h
  cases hd : isPlain d with
  | true =>
    rw [encodeChar_of_plain hd] at hc
    obtain rfl := List.mem_singleton.mp hc
    exact Or.inl hd
  | false =>
    rw [encodeChar_of_not_plain hd] at hc
    simp only [List.mem_cons, List.mem_append, List.not_mem_nil, or_false] at hc
    rcases hc with rfl | rfl | hc | rfl
    · exact Or.inr rfl
    · exact Or.inl (by decide)
    · exact Or.inl (isPlain_of_isHexDigit (isHexDigit_of_mem_toDigits hc))
    · exact Or.inr rfl

theorem isIdentRest_of_mem_encode (h : c ∈ encode t) : isIdentRest c = true := by
  rcases plain_or_underscore_of_mem_encode h with hc | rfl
  · have hc : c.isAlphanum = true := hc
    simp [isIdentRest, hc]
  · decide +kernel

theorem isName_mark_append (mark : Text) (hmark : Text.IsName mark) (t : Text) :
    Text.IsName (mark ++ encode t) where
  start := by
    obtain ⟨c, rest, rfl⟩ := List.exists_cons_of_ne_nil hmark.ne_nil
    simpa using hmark.start
  chars c hc := by
    rcases List.mem_append.mp hc with hc | hc
    · exact hmark.chars c hc
    · exact isIdentRest_of_mem_encode hc

theorem isName_ofName (t : Text) : Text.IsName (ofName t) :=
  isName_mark_append (text "s_") ⟨by decide +kernel, List.all_eq_true.mp (by decide +kernel)⟩ t

/-! ### Reading back -/

theorem char?_toNat (c : Char) : char? c.toNat = some c := by
  have hvalid : c.toNat.isValidChar := c.valid
  have hchar := Char.ofNat_toNat c
  rw [Char.ofNat, dif_pos hvalid] at hchar
  rw [char?, dif_pos hvalid, hchar]

/-- The digits of a code point go on to the mark behind them. -/
theorem codePoint?_escape (n : Nat) (x : Text) :
    codePoint? ('_' :: 'u' :: (Nat.toDigits 16 n ++ '_' :: x)) = some (Nat.toDigits 16 n, x) := by
  have hhex : ∀ c ∈ Nat.toDigits 16 n, isHexDigit c = true := fun _ => isHexDigit_of_mem_toDigits
  have htake := Text.takeWhile_append_stop hhex (stops_underscore (x := x))
  have hdrop := Text.dropWhile_append_stop hhex (stops_underscore (x := x))
  obtain ⟨d, ds, hdigits⟩ := List.exists_cons_of_ne_nil (Nat.toDigits_ne_nil (b := 16) (n := n))
  rw [hdigits] at htake hdrop ⊢
  unfold codePoint?
  simp only [htake, hdrop]

theorem codePoint?_of_plain (h : isPlain c = true) (x : Text) : codePoint? (c :: x) = none := by
  have hc : c ≠ '_' := by
    rintro rfl
    exact absurd h (by decide)
  unfold codePoint?
  split
  case h_1 he => exact absurd (List.cons.inj he).1 hc
  case h_2 => rfl

theorem decode?_of_codePoint? (h : codePoint? t = some (ds, x)) :
    decode? t = (char? (hexValue ds)).bind fun c => (decode? x).map (c :: ·) := by
  rw [decode?.eq_def]
  split
  case h_1 ds' x' h' =>
    obtain ⟨rfl, rfl⟩ := Prod.mk.inj (Option.some.inj (h.symm.trans h'))
    cases char? (hexValue ds) <;> cases decode? x <;> rfl
  case h_2 h' => simp [h] at h'

theorem decode?_cons (h : codePoint? (c :: t) = none) :
    decode? (c :: t) = (decode? t).map (c :: ·) := by
  rw [decode?.eq_def]
  split
  case h_1 h' => simp [h] at h'
  case h_2 =>
    dsimp only
    cases decode? t <;> rfl

/-- One code at the front is read back, whatever follows it. -/
theorem decode?_encodeChar_append (c : Char) (x : Text) :
    decode? (encodeChar c ++ x) = (decode? x).map (c :: ·) := by
  cases hc : isPlain c with
  | true =>
    rw [encodeChar_of_plain hc, List.singleton_append, decode?_cons (codePoint?_of_plain hc x)]
  | false =>
    have hcode := codePoint?_escape c.toNat x
    rw [encodeChar_of_not_plain hc, List.cons_append, List.cons_append, List.append_assoc,
      List.singleton_append, decode?_of_codePoint? hcode, hexValue_toDigits, char?_toNat]
    rfl

theorem decode?_encode (t : Text) : decode? (encode t) = some t := by
  induction t with
  | nil => simp [encode, decode?, codePoint?]
  | cons c t ih => rw [encode_cons, decode?_encodeChar_append, ih, Option.map_some]

theorem name?_ofName (t : Text) : name? (ofName t) = some t := decode?_encode t

theorem ofName_inj : ofName a = ofName t ↔ a = t := by
  refine ⟨fun h => ?_, congrArg ofName⟩
  have hread := congrArg name? h
  rw [name?_ofName, name?_ofName] at hread
  exact Option.some.inj hread

/-- Behind its mark an identifier holds letters and digits of ASCII and underscores. The name is
read back from it, whatever text the name is; so no two names have an identifier in common. -/
theorem ofName_legible :
    (∀ t, (∃ w, ofName t = text "s_" ++ w ∧ w.all (fun c => c.isAlphanum || c == '_') = true) ∧
      name? (ofName t) = some t) ∧ Function.Injective ofName := by
  refine ⟨fun t => ⟨⟨encode t, rfl, ?_⟩, name?_ofName t⟩, fun a t => ofName_inj.mp⟩
  rw [List.all_eq_true]
  intro c hc
  rcases plain_or_underscore_of_mem_encode hc with hplain | rfl
  · have hplain : c.isAlphanum = true := hplain
    rw [hplain, Bool.true_or]
  · rfl

/-- A name that holds the code of a character is not taken for that character. -/
theorem ofName_legible_for_code :
    let name := text "x_\x7b_u5f_\x7d"
    ofName name = text "s_x_u5f__u7b__u5f_u5f_u5f__u7d_" ∧ name? (ofName name) = some name ∧
      ofName name ≠ ofName (text "x_\x7b_\x7d") := by
  intro name
  exact ⟨by decide, (ofName_legible.1 name).2, fun h => absurd (ofName_legible.2 h) (by decide)⟩

end Formulary.Identifier
