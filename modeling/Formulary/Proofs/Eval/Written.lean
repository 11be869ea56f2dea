import Mathlib.Data.List.Forall2
import Formulary.Eval.Source
import Formulary.Proofs.Eval.Identifier
import Formulary.Proofs.Eval.Word
import Formulary.Proofs.Formula.Balance

/-! # Source texts made of formulas

A formula is written out piece by piece. Names become identifiers or bracketed
texts, everything else is copied, and since operands stand apart only a stray
character can touch an identifier. So the names in a source text are identifiers of
names in the formula, or names within brackets.
-/

namespace Formulary.Repertoire

open Formula (Piece Reads Apart ApartFrom Single Starts IsOther Leads isGap written leads_cons)
open Text (IsName OnlyNames Stops isIdentRest isIdentStart)

variable {P : Text → Prop} {known : Name → Bool} {p : Piece} {ps : List Piece} {u t : Text}
  {us : List Text} {c : Char}

/-- A piece that is no name and no call, as it is written. -/
def copied (p : Piece) : Text :=
  match p.1 with
  | .opening => ['(']
  | .closing => [')']
  | .other => if p.2 = ['^'] then text "**" else p.2
  | _ => p.2

/-- How a piece may be written, if the names that this brings in satisfy `P`. -/
inductive Writes (P : Text → Prop) : Piece → Text → Prop
  | symbol {name : Name} (h : P (Identifier.ofName name)) :
      Writes P (.atom, name) (Identifier.ofName name)
  | bracketed {name : Name} {body : Text} (h : OnlyNames P body) :
      Writes P (.atom, name) (brackets body)
  | called {name : Name} {u : Text} (h : IsName u) (hu : u.head? ≠ some 'u') :
      Writes P (.func, name) u
  | copied {p : Piece} (hatom : p.1 ≠ .atom) (hfunc : p.1 ≠ .func) : Writes P p (copied p)

/-! ### First characters -/

theorem isPlain_iff : Identifier.isPlain c = true ↔
    (65 ≤ c.toNat ∧ c.toNat ≤ 90) ∨ (97 ≤ c.toNat ∧ c.toNat ≤ 122) ∨
      (48 ≤ c.toNat ∧ c.toNat ≤ 57) := by
  have hranges : Identifier.isPlain c =
      (decide (65 ≤ c.val ∧ c.val ≤ 90) || (decide (97 ≤ c.val) && decide (c.val ≤ 122)) ||
        (decide (48 ≤ c.val) && decide (c.val ≤ 57))) := rfl
  simp [hranges, UInt32.le_iff_toNat_le, or_assoc]

theorem isPlain_of_isOther (h : IsOther c) : Identifier.isPlain c = false := by
  rw [Bool.eq_false_iff, ne_eq, isPlain_iff]
  intro hc
  have hletter : isLatin c ≠ true := by
    have := h.letter
    simp_all [isLetter]
  have hdigit : Text.isAsciiDigit c ≠ true := by simp [h.digit]
  rw [ne_eq, isLatin_iff] at hletter
  rw [ne_eq, Text.isAsciiDigit_iff] at hdigit
  omega

theorem copied_cons {d : Char} {w : Text} (hw : p.2 = d :: w) :
    ∃ c v, copied p = c :: v ∧ (c = d ∨ isIdentRest c = false) := by
  have hround : isIdentRest '(' = false ∧ isIdentRest ')' = false ∧ isIdentRest '*' = false := by
    decide +kernel
  unfold copied
  split
  · exact ⟨_, _, rfl, Or.inr hround.1⟩
  · exact ⟨_, _, rfl, Or.inr hround.2.1⟩
  · split
    · exact ⟨_, _, rfl, Or.inr hround.2.2⟩
    · exact ⟨d, w, hw, Or.inl rfl⟩
  · exact ⟨d, w, hw, Or.inl rfl⟩

theorem ne_u_of_starts {k : Formula.TokenKind} (hc : Starts k c) (hatom : k ≠ .atom)
    (hfunc : k ≠ .func) : c ≠ 'u' := by
  rintro rfl
  cases k with
  | atom => exact hatom rfl
  | func => exact hfunc rfl
  | space => exact absurd (show Text.isBlank 'u' = true from hc) (by decide)
  | number => exact absurd hc (by simp [Starts]; decide)
  | opening => exact absurd (show ('u' == '(' || 'u' == '[') = true from hc) (by decide)
  | closing => exact absurd (show ('u' == ')' || 'u' == ']') = true from hc) (by decide)
  | other => exact absurd hc.letter (by decide)

theorem Writes.head (h : Writes P p u) (hp : Reads known (p :: ps)) :
    ∃ c w, u = c :: w ∧ c ≠ 'u' := by
  have hu : isIdentRest 'u' = true := by decide +kernel
  obtain ⟨d, w, hw, hd⟩ := hp.starts
  cases h with
  | symbol => exact ⟨'s', _, rfl, by decide⟩
  | bracketed => exact ⟨'(', _, rfl, by decide⟩
  | called h hhead =>
    obtain ⟨c, v, rfl⟩ := List.exists_cons_of_ne_nil h.ne_nil
    exact ⟨c, v, rfl, by simpa using hhead⟩
  | copied hatom hfunc =>
    obtain ⟨c, v, hv, hc⟩ := copied_cons hw
    refine ⟨c, v, hv, ?_⟩
    rintro rfl
    rcases hc with rfl | hc
    · exact ne_u_of_starts hd hatom hfunc rfl
    · simp [hu] at hc

theorem head_ne_u (hps : Reads known ps) (hus : List.Forall₂ (Writes P) ps us) :
    us.flatten.head? ≠ some 'u' := by
  cases hus with
  | nil => simp
  | cons h hus =>
    obtain ⟨c, w, rfl, hc⟩ := h.head hps
    simpa using hc

theorem leads_blanks_append (hu : ∀ b ∈ u, Text.isBlank b = true) :
    Leads (u ++ t) ↔ (∀ b ∈ u, isGap b = true) ∧ Leads t := by
  induction u with
  | nil => simp
  | cons b u ih =>
    rw [List.forall_mem_cons] at hu
    rw [List.forall_mem_cons, and_assoc, ← ih hu.2]
    cases hb : isGap b with
    | true => simp [Leads, hb]
    | false =>
      rw [List.cons_append, leads_cons hb]
      simp only [Bool.false_eq_true, false_and, iff_false]
      rintro rfl
      exact absurd hu.1 (by decide)

/-- Where a bracket opens in a formula, one opens in its source text. -/
theorem leads_flatten (hps : Reads known ps) (hus : List.Forall₂ (Writes P) ps us)
    (hl : Leads (written ps)) : Leads us.flatten := by
  induction hus with
  | nil => simp [Leads] at hl
  | @cons p u ps us h hus ih =>
    by_cases hp : p.1 = .space
    · obtain ⟨w, rfl, hw, -, hps⟩ := hps.of_cons hp
      rw [Formula.written_cons, leads_blanks_append hw] at hl
      cases h with
      | copied => exact (leads_blanks_append hw).mpr ⟨hl.1, ih hps hl.2⟩
    · obtain ⟨c, w, hw, hc⟩ := hps.starts
      rw [Formula.written_cons, hw, List.cons_append, leads_cons (hc.isGap hp)] at hl
      subst hl
      have hopening := hc.opening
      cases h with
      | copied => simp [copied, hopening, Leads, isGap]
      | _ => simp at hopening

/-! ### What touches an identifier -/

/-- Behind a name or a number only a stray character can go on with it. -/
theorem stray_of_apartFrom {k : Formula.TokenKind} (hk : Formula.endsOperand k = true)
    (hps : Reads known ps) (hone : Single ps) (ha : ApartFrom (some k) ps)
    (hus : List.Forall₂ (Writes P) ps us)
    (hc : us.flatten = c :: t) (hword : isIdentRest c = true) :
    IsOther c ∧ (.other, [c]) ∈ ps ∧ t.head? ≠ some 'u' := by
  cases hus with
  | nil => simp at hc
  | @cons p u ps us h hus =>
    obtain ⟨d, w, hw, hd⟩ := hps.starts
    have hopen : isIdentRest '(' = false ∧ isIdentRest ')' = false := by decide +kernel
    by_cases hspace : p.1 = .space
    · obtain ⟨v, rfl, hv, -, -⟩ := hps.of_cons hspace
      cases h with
      | copied =>
        obtain rfl : d = c := by simp_all [copied]
        have := Text.isIdentRest_of_isBlank (hv d (by simp_all))
        simp [hword] at this
    · have hmultiplies := ha k rfl p.1 (by rw [Formula.nextKind?_cons hspace]; rfl)
      cases hp : p.1 with
      | closing =>
        cases h with
        | copied =>
          obtain rfl : ')' = c := by simpa [copied, hp] using congrArg List.head? hc
          simp [hopen.2] at hword
        | _ => simp at hp
      | other =>
        obtain ⟨kind, v⟩ := p
        obtain rfl : kind = .other := hp
        obtain ⟨e, rfl⟩ : ∃ e, v = [e] := hone _ List.mem_cons_self rfl
        obtain ⟨rfl, -⟩ : e = d ∧ [] = w := by simpa using hw
        cases h with
        | copied =>
          by_cases hpower : e = '^'
          · subst hpower
            obtain rfl : '*' = c := by simpa [copied, text] using congrArg List.head? hc
            exact absurd hword (by decide +kernel)
          · obtain ⟨rfl, rfl⟩ : e = c ∧ us.flatten = t := by simpa [copied, hpower] using hc
            refine ⟨hd, List.mem_cons_self, ?_⟩
            cases hps with
            | plain _ hps => exact head_ne_u hps hus
      | space => exact absurd hp hspace
      | _ => simp [hp, hk, Formula.multiplies, Formula.startsOperand] at hmultiplies

/-- No character of a piece that is copied begins a name, unless it is a stray one. -/
theorem start_of_mem_copied {k : Formula.TokenKind} {d : Char} {w after : Text}
    (hcut : Formula.Cut k d w after) (hatom : k ≠ .atom) (hc : c ∈ copied (k, d :: w)) :
    isIdentStart c = false ∨ k = .other ∧ w = [] ∧ c = d ∧ IsOther d := by
  have hblank : ∀ b, Text.isBlank b = true → isIdentStart b = false := by
    intro b hb
    have := Text.isIdentRest_of_isBlank hb
    rw [Bool.eq_false_iff] at this ⊢
    exact fun h => this (Text.isIdentRest_of_start h)
  have hdigit : ∀ b, Text.isAsciiDigit b = true ∨ b = '.' → isIdentStart b = false := by
    have hall : ∀ n ∈ List.range 128, Text.isAsciiDigit (Char.ofNat n) = true →
        isIdentStart (Char.ofNat n) = false := by
      decide +kernel
    rintro b (hb | rfl)
    · have := hall b.toNat (by rw [Text.isAsciiDigit_iff] at hb; simp; omega)
      rw [Char.ofNat_toNat] at this
      exact this hb
    · decide +kernel
  have hround : isIdentStart '(' = false ∧ isIdentStart ')' = false ∧ isIdentStart '*' = false := by
    decide +kernel
  cases hcut with
  | space hd hw =>
    left
    rcases List.mem_cons.mp hc with rfl | hc
    · exact hblank _ hd
    · exact hblank _ (hw _ hc)
  | number hd hw =>
    left
    rcases List.mem_cons.mp hc with rfl | hc
    · exact hdigit _ (Formula.Cut.starts (.number hd hw))
    · have := Formula.takeNumber_chars (d = '.') (w ++ after)
      rw [hw] at this
      exact hdigit _ (this c hc)
  | subscripted => exact absurd rfl hatom
  | letter => exact absurd rfl hatom
  | opening =>
    obtain rfl := List.mem_singleton.mp hc
    exact Or.inl hround.1
  | closing =>
    obtain rfl := List.mem_singleton.mp hc
    exact Or.inl hround.2.1
  | other hd =>
    by_cases hpower : d = '^'
    · subst hpower
      obtain rfl : c = '*' := by simpa [copied, text] using hc
      exact Or.inl hround.2.2
    · obtain rfl : c = d := by simpa [copied, hpower] using hc
      exact Or.inr ⟨rfl, rfl, rfl, hd⟩

theorem isIdentRest_of_gap (c : Char) (h : isGap c = true ∨ c = '(') : isIdentRest c = false := by
  rcases h with h | rfl
  · exact Text.isIdentRest_of_isBlank (Formula.isBlank_of_isGap h)
  · decide +kernel

theorem onlyNames_brackets {body : Text} (hbody : OnlyNames P body) (ht : OnlyNames P t) :
    OnlyNames P (brackets body ++ t) := by
  have hclosing : OnlyNames P ([')'] ++ t) :=
    ht.of_not_start (Text.eq_false_of_any (by decide +kernel))
  have hinner : OnlyNames P (body ++ ([')'] ++ t)) :=
    hbody.append hclosing (Text.stops_append (by simp) (Text.eq_false_of_any (by decide +kernel)))
  have houter : OnlyNames P (['('] ++ (body ++ ([')'] ++ t))) :=
    hinner.of_not_start (Text.eq_false_of_any (by decide +kernel))
  simpa [brackets] using houter

/-- Behind an identifier there is no word character, or one that no identifier goes on with. -/
theorem onlyNames_symbol {name : Name} (hP : P (Identifier.ofName name)) (ht : OnlyNames P t)
    (hedge : ∀ c rest, t = c :: rest → isIdentRest c = true → Identifier.isPlain c = false ∧
      rest.head? ≠ some 'u' ∧ ∀ n, IsName n → ¬ P n → ∃ name, n = Identifier.ofName name) :
    OnlyNames P (Identifier.ofName name ++ t) := by
  intro n after hn hword hnot
  have hword' := hword
  rcases hword.of_append with hword | ⟨front, m, hsplit, hne, hm, hfront⟩
  · exact ht n after hn hword hnot
  · have hchars := (Identifier.isName_ofName name).chars
    rw [hsplit] at hchars
    have hnil : front = [] := by
      by_contra hne
      obtain ⟨c, rest, hc⟩ := List.exists_cons_of_ne_nil (List.reverse_ne_nil_iff.mpr hne)
      have := hchars c (List.mem_append_left m (List.mem_reverse.mp (by simp [hc])))
      simp [hfront c (by simp [hc])] at this
    subst hnil
    obtain rfl : Identifier.ofName name = m := hsplit
    obtain ⟨more, rfl, hmore⟩ := Text.eq_append_of_run hchars hn.chars hword'.stops hm
    cases more with
    | nil => simpa using hP
    | cons c more =>
      obtain ⟨hplain, hu, hstray⟩ := hedge c (more ++ after) hmore (hn.chars c (by simp))
      by_contra hnP
      obtain ⟨name', hname'⟩ := hstray _ hn hnP
      have hcode : Identifier.encode name ++ c :: more = Identifier.encode name' := by
        simpa [Identifier.ofName] using hname'
      obtain ⟨rest, -, hrest⟩ := Identifier.eq_append_of_encode hcode
      rcases Identifier.head_of_encode hrest.symm with hc | ⟨-, hc⟩
      · simp [hplain] at hc
      · exact hu (by simp [hc])

/-- The names in a source text are those that its pieces bring in, if no stray character belongs
to names, or else among identifiers of names. -/
theorem onlyNames_flatten (hps : Reads known ps) (ha : Apart ps) (hone : Single ps)
    (hus : List.Forall₂ (Writes P) ps us)
    (hstray : (∀ p ∈ ps, p.1 = .other → ∀ c ∈ p.2, isIdentRest c = false) ∨
      ∀ n, IsName n → ¬ P n → ∃ name, n = Identifier.ofName name) :
    OnlyNames P us.flatten := by
  induction hps generalizing us with
  | nil =>
    cases hus
    exact Text.onlyNames_nil
  | @call name ps hname hk hl hps ih =>
    cases hus with
    | @cons _ u _ us h hus =>
    have hrest := ih ha.2 hone.of_cons hus (hstray.imp_left fun h q hq => h q (by simp [hq]))
    cases h with
    | copied _ hfunc => exact absurd rfl hfunc
    | called hname =>
      -- The bracket behind a call ends its name and opens the arguments.
      have hlead := leads_flatten hps hus hl
      intro n after hn hword hnot
      rcases hword.of_append with hword' | ⟨front, m, rfl, -, hm, -⟩
      · exact hrest n after hn hword' hnot
      · obtain ⟨more, rfl, hmore⟩ := Text.eq_append_of_run
          (fun c hc => hname.chars c (by simp [hc])) hn.chars hword.stops hm
        cases more with
        | nil =>
          rw [hmore] at hlead
          exact absurd hlead hnot
        | cons c more =>
          have hstop := hlead.stops isIdentRest_of_gap c (by simp [hmore])
          simp [hn.chars c (by simp)] at hstop
  | @plain k c w ps hcut hps ih =>
    cases hus with
    | @cons _ u _ us h hus =>
    have hrest := ih ha.2 hone.of_cons hus (hstray.imp_left fun h q hq => h q (by simp [hq]))
    rw [List.flatten_cons]
    cases h with
    | symbol hP =>
      refine onlyNames_symbol hP hrest fun c t hc hword => ?_
      obtain ⟨hother, hmem, hu⟩ := stray_of_apartFrom rfl hps hone.of_cons ha.1 hus hc hword
      rcases hstray with hstray | hstray
      · have := hstray _ (List.mem_cons_of_mem _ hmem) rfl c (by simp)
        simp [hword] at this
      · exact ⟨isPlain_of_isOther hother, hu, hstray⟩
    | bracketed hbody => exact onlyNames_brackets hbody hrest
    | called => cases hcut
    | copied hatom hfunc =>
      refine hrest.of_heads fun n hn hP d hd hhead => ?_
      have hstart : isIdentStart d = true := by simpa [hhead] using hn.start
      rcases start_of_mem_copied hcut hatom hd with hd | ⟨rfl, rfl, rfl, hother⟩
      · simp [hstart] at hd
      · rcases hstray with hstray | hstray
        · have := hstray _ List.mem_cons_self rfl d (by simp)
          simp [Text.isIdentRest_of_start hstart] at this
        · obtain ⟨name, rfl⟩ := hstray n hn hP
          obtain rfl : 's' = d := by simpa [Identifier.ofName, text] using hhead
          exact absurd hother.letter (by decide)
  | @tail c body =>
    obtain ⟨d, hd⟩ := hone (.other, '_' :: '{' :: body) (by simp) rfl
    simp at hd

end Formulary.Repertoire
