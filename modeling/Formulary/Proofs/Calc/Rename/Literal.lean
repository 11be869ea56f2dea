import Formulary.Proofs.Calc.Lexeme
import Formulary.Proofs.Eval.Reworded

/-! # Literals in texts with another word

A number or a quoted text at the front of a text with another word is the one that was
there. Words end before a point and before quotes, so what follows has the other word too.
-/

namespace Formulary.Lexeme

open Text (Reworded Stops ofName_cons isAsciiDigit isIdentRest isIdentRest_of_isBlank
  isIdentRest_of_start
  isIdentStart ofName_cons)
open Identifier (ofName)

variable {W : Text → Prop} {m n : Name} {b : Bool} {t u : Text} {c : Char}

/-! ### Numbers -/

theorem ne_of_isAsciiDigit {d : Char} (hc : isAsciiDigit c = true) (hd : isAsciiDigit d = false) :
    c ≠ d := by
  rintro rfl
  simp [hc] at hd

theorem moreDigits_digit (hc : isAsciiDigit c = true) :
    moreDigits (c :: t) = (c :: (moreDigits t).1, (moreDigits t).2) := by
  have hmark := ne_of_isAsciiDigit hc (d := '_') (by decide)
  rw [moreDigits.eq_def]
  split
  · exact absurd (List.cons.inj ‹_›).1 hmark
  · obtain ⟨rfl, rfl⟩ := List.cons.inj ‹_›
    rw [if_pos hc]
  · simp at *

theorem moreDigits_mark (hc : isAsciiDigit c = true) :
    moreDigits ('_' :: c :: t) = (c :: (moreDigits t).1, (moreDigits t).2) := by
  rw [moreDigits, if_pos hc]

theorem moreDigits_of_head? {d : Char} (h : t.head? = some d) (hd : isAsciiDigit d = false)
    (hmark : d ≠ '_') :
    moreDigits t = ([], t) := by
  obtain ⟨t, rfl⟩ := List.head?_eq_some_iff.mp h
  rw [moreDigits.eq_def]
  split
  · exact absurd (List.cons.inj ‹_›).1 hmark
  · obtain ⟨rfl, rfl⟩ := List.cons.inj ‹_›
    simp [hd]
  · simp at *

theorem moreDigits_of_mark (h : ∀ d ∈ t.head?, isAsciiDigit d = false) :
    moreDigits ('_' :: t) = ([], '_' :: t) := by
  cases t with
  | nil => rfl
  | cons d t =>
    have hd : isAsciiDigit d = false := h d rfl
    simp [moreDigits, hd]

/-- What is read in front of a reworded text is the same, and what follows it is reworded. -/
def SameFront {α : Type} (W : Text → Prop) (m n : Name) (x y : α × Text) :
    Prop := y.1 = x.1 ∧ ∃ b, Reworded W m n b x.2 y.2

theorem moreDigits_reworded (h : Reworded W m n b t u) :
    SameFront W m n (moreDigits t) (moreDigits u) := by
  have hs : isAsciiDigit 's' = false := by decide
  have hkept {t u : Text} (h : Reworded W m n b t u) : SameFront W m n (([] : Text), t) ([], u) :=
    ⟨rfl, b, h⟩
  fun_induction moreDigits t generalizing b u with
  | case1 d rest hd ds after hrest ih =>
    obtain ⟨_, rfl, hmark⟩ := h.of_cons (by decide)
    obtain ⟨_, rfl, hdigit⟩ := hmark.of_cons (ne_of_isAsciiDigit hd hs)
    obtain ⟨hds, hafter⟩ := ih hdigit (⟨rfl, _, ·⟩)
    rw [hrest] at hds hafter
    rw [moreDigits_mark hd]
    exact ⟨congrArg (d :: ·) hds, hafter⟩
  | case2 d rest hd =>
    obtain ⟨u, rfl, hmark⟩ := h.of_cons (by decide)
    have hhead : ∀ d ∈ u.head?, isAsciiDigit d = false := by
      rw [hmark.head?]
      simpa using hd
    rw [moreDigits_of_mark hhead]
    exact hkept h
  | case3 d rest hne hd ds after hrest ih =>
    obtain ⟨_, rfl, hdigit⟩ := h.of_cons (ne_of_isAsciiDigit hd hs)
    obtain ⟨hds, hafter⟩ := ih hdigit (⟨rfl, _, ·⟩)
    rw [hrest] at hds hafter
    rw [moreDigits_digit hd]
    exact ⟨congrArg (d :: ·) hds, hafter⟩
  | case4 d rest hne hd =>
    by_cases hmark : d = '_'
    · subst hmark
      obtain rfl : rest = [] := by
        cases rest with
        | nil => rfl
        | cons d rest => exact (hne d rest rfl rfl).elim
      obtain ⟨_, rfl, hnil⟩ := h.of_cons (by decide)
      obtain rfl := hnil.of_nil
      exact hkept h
    · rw [moreDigits_of_head? h.head? (by simpa using hd) hmark]
      exact hkept h
  | case5 =>
    obtain rfl := h.of_nil
    exact hkept h

theorem digits_digit (hc : isAsciiDigit c = true) :
    digits (c :: t) = (c :: (moreDigits t).1, (moreDigits t).2) := by
  rw [digits, if_pos hc]

theorem digits_of_head? (h : ∀ d ∈ t.head?, isAsciiDigit d = false) : digits t = ([], t) := by
  cases t with
  | nil => rfl
  | cons d t =>
    have hd : isAsciiDigit d = false := h d rfl
    simp [digits, hd]

theorem digits_reworded (h : Reworded W m n b t u) : SameFront W m n (digits t) (digits u) := by
  have hs : isAsciiDigit 's' = false := by decide
  cases t with
  | nil =>
    obtain rfl := h.of_nil
    exact ⟨rfl, b, h⟩
  | cons c t =>
    cases hc : isAsciiDigit c with
    | true =>
      obtain ⟨_, rfl, hrest⟩ := h.of_cons (ne_of_isAsciiDigit hc hs)
      obtain ⟨hds, hafter⟩ := moreDigits_reworded hrest
      rw [digits_digit hc, digits_digit hc]
      exact ⟨congrArg (c :: ·) hds, hafter⟩
    | false =>
      have hhead : ∀ d ∈ (c :: t).head?, isAsciiDigit d = false := by simpa using hc
      rw [digits_of_head? hhead, digits_of_head? (h.head? ▸ hhead)]
      exact ⟨rfl, b, h⟩

/-- The sign of an exponent, and what follows it. -/
def exponentSign (t : Text) : Bool × Text :=
  match t with
  | '-' :: ds => (true, ds)
  | '+' :: ds => (false, ds)
  | ds => (false, ds)

/-- The exponent of these digits. -/
def exponentOf? (negative : Bool) (p : Text × Text) : Option (Int × Text) :=
  match p with
  | ([], _) => none
  | (ds, after) =>
    let n : Int := Text.digitsValue ds
    some (if negative then -n else n, after)

theorem exponent?_cons : exponent? (c :: t) =
    if c == 'e' || c == 'E' then exponentOf? (exponentSign t).1 (digits (exponentSign t).2)
      else none := by
  rfl

theorem exponentSign_of_head? (hminus : t.head? ≠ some '-') (hplus : t.head? ≠ some '+') :
    exponentSign t = (false, t) := by
  unfold exponentSign
  split <;> simp_all

theorem exponentSign_reworded (h : Reworded W m n b t u) :
    SameFront W m n (exponentSign t) (exponentSign u) := by
  by_cases hminus : t.head? = some '-'
  · obtain ⟨t, rfl⟩ := List.head?_eq_some_iff.mp hminus
    obtain ⟨_, rfl, hrest⟩ := h.of_cons (by decide)
    exact ⟨rfl, _, hrest⟩
  · by_cases hplus : t.head? = some '+'
    · obtain ⟨t, rfl⟩ := List.head?_eq_some_iff.mp hplus
      obtain ⟨_, rfl, hrest⟩ := h.of_cons (by decide)
      exact ⟨rfl, _, hrest⟩
    · rw [exponentSign_of_head? hminus hplus,
        exponentSign_of_head? (h.head? ▸ hminus) (h.head? ▸ hplus)]
      exact ⟨rfl, b, h⟩

theorem exponentOf?_reworded {negative : Bool} {x y : Text × Text} (h : SameFront W m n x y) :
    Option.Rel (SameFront W m n) (exponentOf? negative x) (exponentOf? negative y) := by
  obtain ⟨ds, after⟩ := x
  obtain ⟨ds', after'⟩ := y
  obtain ⟨rfl, hafter⟩ : ds' = ds ∧ _ := h
  cases ds' with
  | nil => exact .none
  | cons d ds => exact .some ⟨rfl, hafter⟩

theorem exponent?_of_head? (h : ∀ c ∈ t.head?, (c == 'e' || c == 'E') = false) :
    exponent? t = none := by
  cases t with
  | nil => rfl
  | cons c t => rw [exponent?_cons, h c rfl, if_neg (by simp)]

theorem exponent?_reworded (h : Reworded W m n b t u) :
    Option.Rel (SameFront W m n) (exponent? t) (exponent? u) := by
  cases t with
  | nil =>
    obtain rfl := h.of_nil
    exact .none
  | cons c t =>
    cases hc : (c == 'e' || c == 'E') with
    | true =>
      have hs : c ≠ 's' := by
        rintro rfl
        exact absurd hc (by decide)
      obtain ⟨u, rfl, hrest⟩ := h.of_cons hs
      obtain ⟨hsign, b', hdigits⟩ := exponentSign_reworded hrest
      rw [exponent?_cons, exponent?_cons, hc, if_pos rfl, if_pos rfl, hsign]
      exact exponentOf?_reworded (digits_reworded hdigits)
    | false =>
      have hhead : ∀ d ∈ (c :: t).head?, (d == 'e' || d == 'E') = false := by simpa using hc
      rw [exponent?_of_head? hhead, exponent?_of_head? (h.head? ▸ hhead)]
      exact .none

/-- Whether there is a point, the digits behind it, and what follows. -/
def fraction (t : Text) : Bool × Text × Text :=
  match t with
  | '.' :: more =>
    let (back, after) := digits more
    (true, back, after)
  | rest => (false, [], rest)

/-- The number with these digits before and behind the point. -/
def numberOf? (front : Text) (dotted : Bool) (back rest : Text) : Option (Lexeme × Text) :=
  let all := front ++ back
  match exponent? rest with
  | some (e, after) =>
    some (.decimal (Text.digitsValue all) (significantCount all) (e - back.length), after)
  | none =>
    if dotted then
      some (.decimal (Text.digitsValue all) (significantCount all) (-(back.length : Int)), rest)
    else if front.head? == some '0' && front.any (· != '0') then none
    else some (.whole (Text.digitsValue front), rest)

theorem number?_eq : number? t =
    let p := fraction (digits t).2
    numberOf? (digits t).1 p.1 p.2.1 p.2.2 := rfl

theorem fraction_reworded (h : Reworded W m n b t u) :
    (fraction u).1 = (fraction t).1 ∧ SameFront W m n (fraction t).2 (fraction u).2 := by
  by_cases hpoint : t.head? = some '.'
  · obtain ⟨t, rfl⟩ := List.head?_eq_some_iff.mp hpoint
    obtain ⟨u, rfl, hrest⟩ := h.of_cons (by decide)
    exact ⟨rfl, digits_reworded hrest⟩
  · have hnone {t : Text} (h : t.head? ≠ some '.') : fraction t = (false, [], t) := by
      unfold fraction
      split <;> simp_all
    rw [hnone hpoint, hnone (h.head? ▸ hpoint)]
    exact ⟨rfl, rfl, b, h⟩

theorem numberOf?_reworded {front back : Text} {dotted : Bool} (h : Reworded W m n b t u) :
    Option.Rel (SameFront W m n) (numberOf? front dotted back t)
      (numberOf? front dotted back u) := by
  have hexponent := exponent?_reworded h
  rw [numberOf?, numberOf?]
  cases he : exponent? t with
  | some p =>
    cases he' : exponent? u with
    | some p' =>
      rw [he, he'] at hexponent
      obtain ⟨e, after⟩ := p
      obtain ⟨e', after'⟩ := p'
      cases hexponent with
      | some hp =>
        obtain ⟨rfl, hafter⟩ : e' = e ∧ _ := hp
        exact .some ⟨rfl, hafter⟩
    | none =>
      rw [he, he'] at hexponent
      cases hexponent
  | none =>
    cases he' : exponent? u with
    | some p' =>
      rw [he, he'] at hexponent
      cases hexponent
    | none =>
      dsimp only
      split
      · exact .some ⟨rfl, b, h⟩
      · split
        · exact .none
        · exact .some ⟨rfl, b, h⟩

theorem number?_reworded (h : Reworded W m n b t u) :
    Option.Rel (SameFront W m n) (number? t) (number? u) := by
  obtain ⟨hfront, b', hrest⟩ := digits_reworded h
  obtain ⟨hdotted, hback, b'', hafter⟩ := fraction_reworded hrest
  rw [number?_eq, number?_eq]
  dsimp only
  rw [hfront, hdotted, hback]
  exact numberOf?_reworded hafter

/-! ### Quoted texts -/

theorem ne_of_isIdentRest {d : Char} (hc : isIdentRest c = true) (hd : isIdentRest d = false) :
    c ≠ d := by
  rintro rfl
  simp [hc] at hd

theorem isIdentRest_mark : isIdentRest '\\' = false ∧ isIdentRest '\n' = false ∧ isIdentRest '\'' =
    false ∧ isIdentRest '"' = false := by
  decide +kernel

theorem afterQuote?_word {quote : Char} {w : Text} (hquote : isIdentRest quote = false)
    (hw : ∀ c ∈ w, isIdentRest c = true) :
    afterQuote? quote (w ++ t) = afterQuote? quote t := by
  induction w with
  | nil => rfl
  | cons c w ih =>
    obtain ⟨hc, hw⟩ := List.forall_mem_cons.mp hw
    have hslash := ne_of_isIdentRest hc isIdentRest_mark.1
    have hline := ne_of_isIdentRest hc isIdentRest_mark.2.1
    have hend := ne_of_isIdentRest hc hquote
    rw [List.cons_append, afterQuote?.eq_def]
    split
    · simp at *
    · simp_all
    · obtain ⟨rfl, rfl⟩ := List.cons.inj ‹_›
      rw [if_neg hend, if_neg hline, ih hw]

theorem afterQuote?_cons {quote : Char} (hc : c ≠ '\\') : afterQuote? quote (c :: t) =
    if c = quote then some t else if c = '\n' then none else afterQuote? quote t := by
  rw [afterQuote?.eq_def]
  split
  · simp at *
  · exact absurd (List.cons.inj ‹_›).1 hc
  · obtain ⟨rfl, rfl⟩ := List.cons.inj ‹_›
    rfl

theorem tail_ofName_chars (n : Name) :
    ∀ c ∈ '_' :: Identifier.encode n, isIdentRest c = true := fun c hc =>
  (Identifier.isName_ofName n).chars c (List.mem_cons_of_mem 's' hc)

theorem afterQuote?_reworded {quote : Char} (hquote : isIdentRest quote = false)
    (h : Reworded W m n b t u) :
    Option.Rel (Reworded W m n false) (afterQuote? quote t) (afterQuote? quote u) := by
  induction hl : t.length using Nat.strong_induction_on generalizing t u b with
  | _ k ih =>
  subst hl
  cases h with
  | nil => exact .none
  | swap hW hstops h =>
    rw [afterQuote?_word hquote (Identifier.isName_ofName m).chars,
      afterQuote?_word hquote (Identifier.isName_ofName n).chars]
    exact ih _ (by simp [ofName_cons]; omega) h rfl
  | @keep _ c t u hword h =>
    by_cases hslash : c = '\\'
    · subst hslash
      rw [isIdentRest_mark.1] at h
      cases h with
      | nil =>
        simp only [afterQuote?]
        split
        · exact .some .nil
        · split <;> exact .none
      | @keep _ d t u hword h =>
        have hrest := ih t.length (by simp only [List.length_cons]; omega) h rfl
        simpa only [afterQuote?] using hrest
      | @swap t u hW hstops h =>
        have hskip (n : Name) (t : Text) :
            afterQuote? quote ('\\' :: (ofName n ++ t)) = afterQuote? quote t :=
          afterQuote?_word hquote (tail_ofName_chars n)
        rw [hskip, hskip]
        exact ih _ (by simp [ofName_cons]; omega) h rfl
    · rw [afterQuote?_cons hslash, afterQuote?_cons hslash]
      split
      · rename_i hc
        subst hc
        rw [hquote] at h
        exact .some h
      · split
        · exact .none
        · exact ih _ (by simp) h rfl

theorem ne_s (hc : isIdentRest c = false) : c ≠ 's' := by
  rintro rfl
  exact absurd hc (by decide +kernel)

theorem isPrefixOf_reworded {o : Text} (ho : ∀ c ∈ o, isIdentRest c = false)
    (h : Reworded W m n b t u) :
    o.isPrefixOf u = o.isPrefixOf t := by
  induction o generalizing b t u with
  | nil => simp
  | cons c o ih =>
    obtain ⟨hc, ho⟩ := List.forall_mem_cons.mp ho
    cases t with
    | nil => rw [h.of_nil]
    | cons d t =>
      by_cases hd : c = d
      · subst hd
        obtain ⟨u, rfl, hrest⟩ := h.of_cons (ne_s hc)
        simp [List.isPrefixOf, ih ho hrest]
      · obtain ⟨u, rfl⟩ := List.head?_eq_some_iff.mp h.head?
        simp [List.isPrefixOf, beq_eq_false_iff_ne.mpr hd]

/-- An operator or a quote is taken from both texts. -/
theorem drop_reworded {o : Text} (hne : o ≠ []) (ho : ∀ c ∈ o, isIdentRest c = false)
    (h : Reworded W m n b t u)
    (hpre : o.isPrefixOf t = true) : Reworded W m n false (t.drop o.length) (u.drop o.length) := by
  obtain ⟨rest, rfl⟩ : o <+: t := by simpa using hpre
  clear hpre
  rw [List.drop_left]
  induction o generalizing b u with
  | nil => exact absurd rfl hne
  | cons c o ih =>
    obtain ⟨hc, ho⟩ := List.forall_mem_cons.mp ho
    obtain ⟨u, rfl, hrest⟩ := h.of_cons (ne_s hc)
    cases o with
    | nil => exact hc ▸ hrest
    | cons d o => exact ih (by simp) ho hrest

theorem afterTriple?_cons {quote : Char} (hc : c ≠ '\\') : afterTriple? quote (c :: t) =
    if [quote, quote, quote].isPrefixOf (c :: t) then some (t.drop 2)
      else afterTriple? quote t := by
  rw [afterTriple?.eq_def]
  split
  · simp at *
  · exact absurd (List.cons.inj ‹_›).1 hc
  · obtain ⟨rfl, rfl⟩ := List.cons.inj ‹_›
    rfl

theorem afterTriple?_word {quote : Char} {w : Text} (hquote : isIdentRest quote = false)
    (hw : ∀ c ∈ w, isIdentRest c = true) :
    afterTriple? quote (w ++ t) = afterTriple? quote t := by
  induction w with
  | nil => rfl
  | cons c w ih =>
    obtain ⟨hc, hw⟩ := List.forall_mem_cons.mp hw
    have hend := ne_of_isIdentRest hc hquote
    rw [List.cons_append, afterTriple?_cons (ne_of_isIdentRest hc isIdentRest_mark.1),
      if_neg (by simp [List.isPrefixOf, hend.symm]), ih hw]

theorem afterTriple?_reworded {quote : Char} (hquote : isIdentRest quote = false)
    (h : Reworded W m n b t u) :
    Option.Rel (Reworded W m n false) (afterTriple? quote t) (afterTriple? quote u) := by
  induction hl : t.length using Nat.strong_induction_on generalizing t u b with
  | _ k ih =>
  subst hl
  have hquotes : ∀ c ∈ [quote, quote, quote], isIdentRest c = false := by simpa using hquote
  have hwhole := h
  cases h with
  | nil => exact .none
  | swap hW hstops h =>
    rw [afterTriple?_word hquote (Identifier.isName_ofName m).chars,
      afterTriple?_word hquote (Identifier.isName_ofName n).chars]
    exact ih _ (by simp [ofName_cons]; omega) h rfl
  | @keep _ c t u hword h =>
    by_cases hslash : c = '\\'
    · subst hslash
      rw [isIdentRest_mark.1] at h
      cases h with
      | nil =>
        simp only [afterTriple?, List.isPrefixOf]
        simp
      | @keep _ d t u hword h =>
        have hrest := ih t.length (by simp only [List.length_cons]; omega) h rfl
        simpa only [afterTriple?] using hrest
      | @swap t u hW hstops h =>
        have hskip (n : Name) (t : Text) :
            afterTriple? quote ('\\' :: (ofName n ++ t)) = afterTriple? quote t :=
          afterTriple?_word hquote (tail_ofName_chars n)
        rw [hskip, hskip]
        exact ih _ (by simp [ofName_cons]; omega) h rfl
    · rw [afterTriple?_cons hslash, afterTriple?_cons hslash, isPrefixOf_reworded hquotes hwhole]
      split
      · exact .some (drop_reworded (o := [quote, quote, quote]) (by simp) hquotes hwhole ‹_›)
      · exact ih _ (by simp) h rfl

theorem quotedRest?_reworded {quote : Char} (hquote : isIdentRest quote = false)
    (h : Reworded W m n b t u) :
    Option.Rel (Reworded W m n false) (quotedRest? quote t) (quotedRest? quote u) := by
  have hquotes : ∀ c ∈ [quote, quote], isIdentRest c = false := by simpa using hquote
  rw [quotedRest?, quotedRest?, isPrefixOf_reworded hquotes h]
  split
  · exact afterTriple?_reworded hquote (drop_reworded (o := [quote, quote]) (by simp) hquotes h ‹_›)
  · exact afterQuote?_reworded hquote h

end Formulary.Lexeme
