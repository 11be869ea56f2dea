import Formulary.Calc.Arithmetic
import Formulary.Proofs.Binding.Sides
import Formulary.Proofs.Eval.Resolution

/-! # Formulas that are handed to evaluation

Evaluation reads names as wholes and copies everything else into the source text.
The formula of an accepted definition is balanced, also once its products are written
out, so each subscript is closed wherever the tokens start. What is copied then holds
no letter, and a name becomes an identifier, a constant or a function.
-/

namespace Formulary

namespace Formula

variable {lex : Lexicon} {functions : List Name} {known : Name → Bool} {ps : List Piece}
  {p : Piece} {k : TokenKind} {c d : Char} {w after t : Text} {i n : Nat}

/-! ### Letters of a formula -/

/-- Only atoms are cut off with letters. -/
theorem Cut.atom_of_letter (h : Cut k c w after) (hd : d ∈ c :: w) (hletter : isLetter d = true) :
    k = .atom := by
  cases h with
  | subscripted => rfl
  | letter => rfl
  | space hc hw =>
    have hblank : ∀ b ∈ c :: w, Text.isBlank b = true := List.forall_mem_cons.mpr ⟨hc, hw⟩
    have hd := hblank d hd
    simp [isBlank_of_isLetter hletter] at hd
  | number hc hw =>
    have hstart : Starts .number c := Cut.starts (.number hc hw)
    have hmore := takeNumber_chars (c = '.') (w ++ after)
    rw [hw] at hmore
    have hchars : ∀ b ∈ c :: w, Text.isAsciiDigit b = true ∨ b = '.' :=
      List.forall_mem_cons.mpr ⟨hstart, hmore⟩
    rcases hchars d hd with hdigit | rfl
    · simp [isAsciiDigit_of_isLetter hletter] at hdigit
    · exact absurd hletter (by decide)
  | opening hc =>
    obtain rfl := List.mem_singleton.mp hd
    simp [(isBlank_of_bracket (Or.inl hc)).2.2] at hletter
  | closing hc =>
    obtain rfl := List.mem_singleton.mp hd
    simp [(isBlank_of_bracket (Or.inr hc)).2.2] at hletter
  | other hc =>
    obtain rfl := List.mem_singleton.mp hd
    simp [hc.letter] at hletter

/-- Where every subscript is closed, letters belong to names. -/
theorem Reads.atom_or_func (hps : Reads known ps) (hone : Single ps) (hp : p ∈ ps) (hc : c ∈ p.2)
    (hletter : isLetter c = true) : p.1 = .atom ∨ p.1 = .func := by
  induction hps with
  | nil => simp at hp
  | call _ _ _ _ ih =>
    rcases List.mem_cons.mp hp with rfl | hp
    · exact Or.inr rfl
    · exact ih hone.of_cons hp
  | plain hcut _ ih =>
    rcases List.mem_cons.mp hp with rfl | hp
    · exact Or.inl (hcut.atom_of_letter hc hletter)
    · exact ih hone.of_cons hp
  | @tail _ body =>
    obtain ⟨d, hd⟩ := hone (.other, '_' :: '{' :: body) (by simp) rfl
    simp at hd

/-- Where every subscript is closed, what is no number, name, bracket or blank is one character
that is part of none. -/
theorem Reads.isOther (hps : Reads known ps) (hone : Single ps) (hw : (TokenKind.other, w) ∈ ps) :
    ∃ c, w = [c] ∧ IsOther c := by
  induction hps with
  | nil => simp at hw
  | call _ _ _ _ ih => exact ih hone.of_cons (by simpa using hw)
  | plain hcut _ ih =>
    rcases List.mem_cons.mp hw with he | hw
    · obtain ⟨rfl, rfl⟩ := Prod.mk.inj he
      cases hcut with
      | other hc => exact ⟨_, rfl, hc⟩
    · exact ih hone.of_cons hw
  | @tail _ body =>
    obtain ⟨d, hd⟩ := hone (.other, '_' :: '{' :: body) (by simp) rfl
    simp at hd

/-- Each character of a text stands in one of its tokens. -/
theorem exists_mem_lay_of_getElem? (hc : (written ps)[i]? = some c) :
    ∃ k ∈ lay n ps, k.position ≤ n + i ∧ k.text[n + i - k.position]? = some c := by
  induction ps generalizing i n with
  | nil => simp at hc
  | cons p ps ih =>
    rw [written_cons] at hc
    by_cases hi : i < p.2.length
    · rw [List.getElem?_append_left hi] at hc
      exact ⟨⟨p.1, p.2, n⟩, List.mem_cons_self, by simp, by simpa using hc⟩
    · rw [List.getElem?_append_right (by omega)] at hc
      obtain ⟨k, hk, hle, htext⟩ := ih (n := n + p.2.length) hc
      have hindex : n + p.2.length + (i - p.2.length) = n + i := by omega
      rw [hindex] at hle htext
      exact ⟨k, List.mem_cons_of_mem _ hk, hle, htext⟩

/-- A formula whose letters are all within names. What stands for itself is one character and no
digit either. -/
structure LettersInNames (lex : Lexicon) (functions : List Name) (t : Text) : Prop where
  stray : ∀ k ∈ tokens lex functions t, k.kind = .other →
    ∃ c, k.text = [c] ∧ isLetter c = false ∧ Text.isAsciiDigit c = false
  named : ∀ i c, t[i]? = some c → isLetter c = true → ∃ k ∈ tokens lex functions t,
    (k.kind = .atom ∨ k.kind = .func) ∧ k.position ≤ i ∧ k.text[i - k.position]? = some c
  letters : ∀ k ∈ tokens lex functions t, ∀ c ∈ k.text, isLetter c = true →
    k.kind = .atom ∨ k.kind = .func

theorem lettersInNames_of_isBalanced (h : Bracket.isBalanced t = true) :
    LettersInNames lex functions t := by
  obtain ⟨ps, hps, rfl, htokens⟩ := reads_tokens lex functions t
  have hone : Single ps := hps.single (u := []) h
  have hletters : ∀ k ∈ tokens lex functions (written ps), ∀ c ∈ k.text, isLetter c = true →
      k.kind = .atom ∨ k.kind = .func := by
    intro k hk c hc hletter
    rw [htokens] at hk
    exact hps.atom_or_func hone (mem_of_mem_lay hk) hc hletter
  constructor
  case stray =>
    intro k hk hother
    rw [htokens] at hk
    obtain ⟨c, htext, hc⟩ := hps.isOther hone (hother ▸ mem_of_mem_lay hk)
    exact ⟨c, htext, hc.letter, hc.digit⟩
  case named =>
    intro i c hc hletter
    obtain ⟨k, hk, hle, htext⟩ := exists_mem_lay_of_getElem? (n := 0) hc
    rw [Nat.zero_add] at hle htext
    rw [← htokens] at hk
    exact ⟨k, hk, hletters k hk c (List.mem_of_getElem? htext) hletter, hle, htext⟩
  case letters => exact hletters

end Formula

/-! ### What tokens become -/

namespace Repertoire

open Formula (Token tokens)

variable {e : Repertoire} {k : Token} {name : Name} {t u : Text}

/-- The name of a function that has a meaning when it is called. -/
def Knows (e : Repertoire) (name : Name) : Prop :=
  (e.function? name).isSome = true ∨ (Builtin.ofName? name).isSome = true

/-- With the built-in lexicon every call in a formula is one of a function that is known. -/
theorem known_of_func (hlexicon : e.lexicon = Lexicon.builtin)
    (hk : k ∈ tokens e.lexicon e.functionNames t) (hfunc : k.kind = .func) :
    e.Knows k.text := by
  have hcallable := Formula.isCallable_iff.mp (Formula.isCallable_of_mem_calledNames
    (Formula.mem_calledNames.mpr ⟨k, hk, hfunc, rfl⟩))
  rcases hcallable with hbuiltin | hfunction
  · exact Or.inr (isSome_of_isFunction (hlexicon ▸ hbuiltin))
  · obtain ⟨f, hf, hname⟩ := List.mem_map.mp hfunction
    have hfound : (e.functions.find? fun f => f.1 == k.text).isSome = true :=
      List.find?_isSome.mpr ⟨f, hf, by simpa using hname⟩
    exact Or.inl ((Option.isSome_map ..).trans hfound)

theorem isLetter_of_mem_copied {p : Formula.Piece} (hp : ∀ c ∈ p.2, isLetter c = false) :
    ∀ c ∈ copied p, isLetter c = false := by
  have hround : isLetter '(' = false ∧ isLetter ')' = false ∧ isLetter '*' = false := by decide
  unfold copied
  split
  · exact List.forall_mem_singleton.mpr hround.1
  · exact List.forall_mem_singleton.mpr hround.2.1
  · split
    · intro c hc
      obtain rfl : c = '*' := by simpa [text] using hc
      exact hround.2.2
    · exact hp
  · exact hp

section

variable [Arithmetic] {s s' : Bindings} {active : List Name}
  {body : Name → Bindings → Text → Written}

/-- What a token becomes in the source text of a formula. A name is replaced as a whole: by the
expression of a constant, by a function without arguments written out, by the identifier of a
symbol or of a routine, or it is a built-in function. The rest is copied without bringing a letter
in. -/
inductive Translates (e : Repertoire) : Token → Text → Prop
  | constant {k : Token} {c : Constant} (hk : k.kind = .atom)
      (hconstant : e.lexicon.isConstant e.complex k.text = true)
      (hc : e.lexicon.constant? k.text = some c) : Translates e k (brackets c.expression)
  | inlined {k : Token} {rhs t : Text} (hk : k.kind = .atom)
      (hconstant : e.lexicon.isConstant e.complex k.text = false)
      (hfunction : e.function? k.text = some ([], rhs)) (ht : e.Source rhs t) :
      Translates e k (brackets t)
  | symbol {k : Token} (hk : k.kind = .atom)
      (hconstant : e.lexicon.isConstant e.complex k.text = false)
      (hbare : ∀ rhs, e.function? k.text ≠ some ([], rhs)) :
      Translates e k (Identifier.ofName k.text)
  | routine {k : Token} (hk : k.kind = .func) (hfunction : (e.function? k.text).isSome = true) :
      Translates e k (routineId k.text)
  | builtin {k : Token} (hk : k.kind = .func) (hfunction : (e.function? k.text).isSome = false)
      (hbuiltin : (Builtin.ofName? k.text).isSome = true) : Translates e k k.text
  | copied {k : Token} (hatom : k.kind ≠ .atom) (hfunc : k.kind ≠ .func)
      (hletters : ∀ c ∈ copied (k.kind, k.text), isLetter c = false) :
      Translates e k (copied (k.kind, k.text))

theorem writeCall_eq_ok (h : e.writeCall active body s name = .ok (u, s')) :
    u = if (e.function? name).isSome then routineId name else name := by
  unfold writeCall at h
  split at h
  · rename_i hfunction
    rw [hfunction]
    dsimp only at h
    split at h
    · exact (Prod.mk.inj (Except.ok.inj h)).1.symm
    · obtain ⟨_, -, h⟩ := ok_of_bind h
      obtain ⟨_, -, h⟩ := ok_of_bind h
      obtain ⟨_, -, h⟩ := ok_of_bind h
      exact (Prod.mk.inj (Except.ok.inj h)).1.symm
  · rename_i hfunction
    rw [hfunction]
    split at h
    · exact (Prod.mk.inj (Except.ok.inj h)).1.symm
    · cases h

theorem translates_of_writeAtom
    (hbody : ∀ name s rhs t s', body name s rhs = .ok (t, s') → e.Source rhs t)
    (hatom : k.kind = .atom) (h : e.writeAtom active body s k.text = .ok (u, s')) :
    e.Translates k u := by
  rcases writeAtom_cases h with ⟨hconstant, -, c, hc, rfl⟩ |
    ⟨hconstant, rhs, t, hfunction, hinside, rfl⟩ | ⟨hconstant, hbare, rfl, -⟩
  · exact .constant hatom hconstant hc
  · exact .inlined hatom hconstant hfunction (hbody _ _ _ _ _ hinside)
  · exact .symbol hatom hconstant hbare

theorem translates_of_writeCall (hfunc : k.kind = .func) (hknown : e.Knows k.text)
    (h : e.writeCall active body s k.text = .ok (u, s')) : e.Translates k u := by
  rw [writeCall_eq_ok h]
  split
  · rename_i hfunction
    exact .routine hfunc hfunction
  · rename_i hfunction
    exact .builtin hfunc (by simpa using hfunction) (hknown.resolve_left hfunction)

theorem translates_of_writeToken
    (hbody : ∀ name s rhs t s', body name s rhs = .ok (t, s') → e.Source rhs t)
    (hknown : k.kind = .func → e.Knows k.text)
    (hletters : ∀ c ∈ k.text, isLetter c = true → k.kind = .atom ∨ k.kind = .func)
    (h : e.writeToken active body s k = .ok (u, s')) : e.Translates k u := by
  rcases writeToken_cases h with ⟨hatom, h⟩ | ⟨hfunc, h⟩ | ⟨hatom, hfunc, rfl, -⟩
  · exact translates_of_writeAtom hbody hatom h
  · exact translates_of_writeCall hfunc (hknown hfunc) h
  · refine .copied hatom hfunc (isLetter_of_mem_copied fun c hc => ?_)
    rw [Bool.eq_false_iff]
    exact fun hletter => (hletters c hc hletter).elim hatom hfunc

/-- The source text of a formula without stray letters is made of what its tokens become. -/
theorem Source.translates (hu : e.Source t u)
    (hknown : ∀ k ∈ tokens e.lexicon e.functionNames t, k.kind = .func → e.Knows k.text)
    (hletters : Formula.LettersInNames e.lexicon e.functionNames t) :
    ∃ us, List.Forall₂ e.Translates (tokens e.lexicon e.functionNames t) us ∧ us.flatten = u := by
  obtain ⟨room, active, s, s', hw⟩ := hu
  rw [write_eq] at hw
  have hbody : ∀ name s rhs t s', e.inside active room name s rhs = .ok (t, s') →
      e.Source rhs t := by
    intro name s rhs t s' h
    cases room with
    | zero => cases h
    | succ room => exact ⟨room, _, s, s', h⟩
  refine (writeTokens_eq_ok (I := fun _ => True) (fun k hk s u s' _ h => ⟨trivial, ?_⟩)
    trivial hw).2
  exact translates_of_writeToken hbody (hknown k hk) (hletters.letters k hk) h

end

end Repertoire

/-! ### Accepted formulas -/

variable {r : Reading} {live : LiveNames} {arities : Formula.Arities} {raw : Text} {p : Plan}

/-- No raw text of an accepted formula comes into its source text. Whatever functions there are, its
letters are all within names, and evaluation replaces each of these by an identifier, a constant or
a function that is known. -/
theorem no_raw_text_of_plan [Arithmetic] (h : plan r live arities raw = .ok p)
    (hk : p.head.kind ≠ .parameter) :
    (∀ lex functions, Formula.LettersInNames lex functions p.rhs) ∧
      ∀ e : Repertoire, e.lexicon = Lexicon.builtin →
        (∀ k ∈ Formula.tokens e.lexicon e.functionNames p.rhs, k.kind = .func → e.Knows k.text) ∧
        ∀ u, e.Source p.rhs u → ∃ us, List.Forall₂ e.Translates
          (Formula.tokens e.lexicon e.functionNames p.rhs) us ∧ us.flatten = u := by
  have hletters (lex : Lexicon) (functions : List Name) :
      Formula.LettersInNames lex functions p.rhs :=
    Formula.lettersInNames_of_isBalanced (isBalanced_of_plan h hk)
  refine ⟨hletters, fun e hlexicon => ?_⟩
  have hknown : ∀ k ∈ Formula.tokens e.lexicon e.functionNames p.rhs,
      k.kind = .func → e.Knows k.text :=
    fun k htoken hfunc => Repertoire.known_of_func hlexicon htoken hfunc
  exact ⟨hknown, fun u hu => hu.translates hknown (hletters _ _)⟩

/-- A formula with a function that has no arguments, a built-in one, a constant and a subscript, and
its source text. -/
theorem no_raw_text_of_plan_with_subscript :
    let live : LiveNames := [(text "g", some .function), (text "a_\x7b0\x7d", none)]
    let e : Repertoire := { functions := [(text "g", [], text "2*b")] }
    let source := text "2*sin((pi)*s_x)*s_a_u5f__u7b_0_u7d_**2*s_g_u27_*(2*s_b)"
    ∃ p, plan {} live [] (text "f(x) = 2sin(pi x)a_\x7b0\x7d^2g'g") = .ok p ∧
      p.head.kind ≠ .parameter ∧ p.rhs = text "2*sin(π*x)*a_\x7b0\x7d^2*g'*g" ∧
      e.Source p.rhs source ∧ (∀ lex functions, Formula.LettersInNames lex functions p.rhs) ∧
      ∃ us, List.Forall₂ e.Translates (Formula.tokens e.lexicon e.functionNames p.rhs) us ∧
        us.flatten = source := by
  intro live e source
  let p : Plan := {
    head := .function ⟨'f', none, 0⟩ [text "x"]
    rhs := text "2*sin(π*x)*a_\x7b0\x7d^2*g'*g"
    dependencies := [text "a_\x7b0\x7d", text "g'", text "g"]
    missing := [text "g'"]
    existing := [text "a_\x7b0\x7d", text "g"]
    calls := []
    transition := none }
  have hplan : plan {} live [] (text "f(x) = 2sin(pi x)a_\x7b0\x7d^2g'g") = .ok p := by
    decide +kernel
  have hk : p.head.kind ≠ .parameter := by decide
  have hwritten : (e.write 1 [] .empty p.rhs).toOption.map Prod.fst = some source := by
    decide +kernel
  have hsource : e.Source p.rhs source := by
    cases hw : e.write 1 [] .empty p.rhs with
    | error => simp [hw, Except.toOption] at hwritten
    | ok w =>
      obtain ⟨u, s'⟩ := w
      obtain rfl : u = source := by simpa [hw, Except.toOption] using hwritten
      exact ⟨1, [], .empty, s', hw⟩
  obtain ⟨hletters, htranslated⟩ := no_raw_text_of_plan hplan hk
  exact ⟨p, hplan, hk, rfl, hsource, hletters, (htranslated e rfl).2 source hsource⟩

end Formulary
