import Formulary.Lexicon.Builtin
import Formulary.Formula.Symbols
import Formulary.Proofs.Formula.Enclosed

/-! # Formula trees

The formula language as trees, whose numbers and names carry what makes them such.
A tree is written as its terminals in order, with any blanks around them; the name of
a call and its bracket are one terminal.
-/

namespace Formulary.Formula

open Text (Spaced)
open Formulary.Bracket (Sealed openAfter? openAfter?_append openAfter?_of_plain)

/-- Digits, or digits around one point. -/
inductive IsDecimal : Text → Prop
  | whole {ds : Text} (hne : ds ≠ []) (hds : ∀ d ∈ ds, Text.isAsciiDigit d = true) : IsDecimal ds
  | pointed {ds fs : Text} (hne : ds ++ fs ≠ [])
      (hds : ∀ d ∈ ds ++ fs, Text.isAsciiDigit d = true) : IsDecimal (ds ++ '.' :: fs)

structure Decimal where
  digits : Text
  isDecimal : IsDecimal digits

/-- A name in its canonical spelling, whose own brackets balance. -/
structure Identifier where
  symbol : Symbol
  letter : isLetter symbol.letter = true
  subscript : ∀ content ∈ symbol.subscript, '}' ∉ content
  balanced : Bracket.isBalanced symbol.name = true

abbrev Identifier.name (s : Identifier) : Name := s.symbol.name

/-- What a formula can call: a built-in function, or a user function with its arity. -/
inductive Callee (arities : Arities) where
  | builtin (name : Name) (h : name ∈ Lexicon.builtin.functions)
  | user (s : Identifier) (arity : Nat) (h : arities.get? s.name = some arity)

inductive Operator where
  | plus | minus | times | over | power
  deriving DecidableEq, Repr

def Operator.sign : Operator → Char
  | .plus => '+'
  | .minus => '-'
  | .times => '*'
  | .over => '/'
  | .power => '^'

/-- The brackets that group a part of a formula. -/
inductive Fence where
  | round | square
  deriving DecidableEq, Repr

def Fence.left : Fence → Char
  | .round => '('
  | .square => '['

def Fence.right : Fence → Char
  | .round => ')'
  | .square => ']'

inductive Tree (arities : Arities) where
  | number (d : Decimal)
  | name (s : Identifier)
  | binary (op : Operator) (left right : Tree arities)
  | negative (e : Tree arities)
  | group (f : Fence) (e : Tree arities)
  | call (f : Callee arities) (args : List (Tree arities))

inductive Terminal (arities : Arities) where
  | number (d : Decimal)
  | name (s : Identifier)
  | sign (op : Operator)
  | comma
  | opening (f : Fence)
  | closing (f : Fence)
  | call (f : Callee arities)

variable {arities : Arities}

def Callee.name : Callee arities → Name
  | .builtin name _ => name
  | .user s _ _ => s.name

/-- A call of a user function by its name, with the number of arguments given and expected. -/
abbrev Record := Name × Nat × Option Nat

/-- What is recorded of a call with `n` arguments; of built-in functions nothing is. -/
def Callee.record (n : Nat) : Callee arities → List Record
  | .builtin _ _ => []
  | .user s arity _ => [(s.name, n, some arity)]

namespace Terminal

/-- The pieces that a terminal is read as. -/
def pieces : Terminal arities → List Piece
  | .number d => [(.number, d.digits)]
  | .name s => [(.atom, s.name)]
  | .sign op => [(.other, [op.sign])]
  | .comma => [(.other, [','])]
  | .opening f => [(.opening, [f.left])]
  | .closing f => [(.closing, [f.right])]
  | .call f => [(.func, f.name), (.opening, ['('])]

def text (x : Terminal arities) : Text := written x.pieces

end Terminal

namespace Tree

mutual

def terminals : Tree arities → List (Terminal arities)
  | .number d => [.number d]
  | .name s => [.name s]
  | .binary op a b => a.terminals ++ .sign op :: b.terminals
  | .negative e => .sign .minus :: e.terminals
  | .group f e => .opening f :: (e.terminals ++ [.closing f])
  | .call f args => .call f :: (terminalsOf args ++ [.closing .round])

/-- The terminals of arguments with commas between them. -/
def terminalsOf : List (Tree arities) → List (Terminal arities)
  | [] => []
  | [e] => e.terminals
  | e :: e' :: es => e.terminals ++ .comma :: terminalsOf (e' :: es)

end

mutual

/-- The names at the leaves, from left to right. -/
def leaves : Tree arities → List Name
  | .number _ => []
  | .name s => [s.name]
  | .binary _ a b => a.leaves ++ b.leaves
  | .negative e | .group _ e => e.leaves
  | .call _ args => leavesOf args

def leavesOf : List (Tree arities) → List Name
  | [] => []
  | e :: es => e.leaves ++ leavesOf es

end

mutual

/-- The calls of user functions, each before those in its arguments. -/
def records : Tree arities → List Record
  | .number _ | .name _ => []
  | .binary _ a b => a.records ++ b.records
  | .negative e | .group _ e => e.records
  | .call f args => f.record args.length ++ recordsOf args

def recordsOf : List (Tree arities) → List Record
  | [] => []
  | e :: es => e.records ++ recordsOf es

end

/-- The text writes the tree with explicit operators and any blanks between terminals. -/
def Renders (e : Tree arities) (t : Text) : Prop := Spaced (e.terminals.map Terminal.text) t

/-- Induction over trees: what holds of all arguments holds of the call. -/
@[elab_as_elim]
theorem induct {P : Tree arities → Prop} (number : ∀ d, P (.number d)) (name : ∀ s, P (.name s))
    (binary : ∀ op a b, P a → P b → P (.binary op a b)) (negative : ∀ e, P e → P (.negative e))
    (group : ∀ f e, P e → P (.group f e))
    (call : ∀ f args, (∀ e ∈ args, P e) → P (.call f args)) (e : Tree arities) : P e := by
  refine @Tree.rec arities P (fun es => ∀ e ∈ es, P e) number name binary negative group call
    ?_ ?_ e
  · exact fun _ h => absurd h List.not_mem_nil
  · intro e es he hes u hu
    rcases List.mem_cons.mp hu with rfl | hu
    · exact he
    · exact hes u hu

end Tree

/-! ### Rendered trees are sealed -/

theorem isPlain_of_isBlank {c : Char} (h : Text.isBlank c = true) : Bracket.IsPlain c :=
  Bracket.isPlain_of_class (by decide) h

theorem isPlain_of_isLetter {c : Char} (h : isLetter c = true) : Bracket.IsPlain c :=
  Bracket.isPlain_of_class (by decide) h

theorem sealed_of_blank {t : Text} (h : ∀ c ∈ t, Text.isBlank c = true) : Sealed t :=
  Bracket.sealed_of_plain fun c hc => isPlain_of_isBlank (h c hc)

namespace Decimal

variable (d : Decimal)

theorem ne_nil : d.digits ≠ [] := by
  obtain ⟨digits, h⟩ := d
  cases h with
  | whole hne => exact hne
  | pointed => simp

theorem of_mem {c : Char} (h : c ∈ d.digits) : (Text.isAsciiDigit c || c == '.') = true := by
  obtain ⟨digits, hdigits⟩ := d
  cases hdigits with
  | whole _ hds => simp [hds c h]
  | @pointed ds fs _ hds =>
    have h' : c = '.' ∨ c ∈ ds ++ fs := by
      simp only [List.mem_append, List.mem_cons] at h ⊢
      exact or_left_comm.mp h
    rcases h' with rfl | h'
    · rfl
    · simp [hds c h']

theorem sealed : Sealed d.digits :=
  Bracket.sealed_of_plain fun _ hc =>
    Bracket.isPlain_of_class (p := fun c => Text.isAsciiDigit c || c == '.') (by decide)
      (d.of_mem hc)

end Decimal

namespace Identifier

variable (s : Identifier)

theorem name_eq {content : Text} (h : s.symbol.subscript = some content) :
    s.name =
      [s.symbol.letter, '_'] ++ '\x7b' :: (content ++ '\x7d' :: marks s.symbol.primes) := by
  simp [Identifier.name, Symbol.name, h, Symbol.subscriptText]

theorem isPlain_front : ∀ c ∈ [s.symbol.letter, '_'], Bracket.IsPlain c := by
  have hmark : Bracket.IsPlain '_' := ⟨rfl, rfl, by decide⟩
  simpa using ⟨isPlain_of_isLetter s.letter, hmark⟩

theorem isPlain_marks (n : Nat) : ∀ c ∈ marks n, Bracket.IsPlain c := fun _ hc =>
  Bracket.isPlain_of_class (by decide) (isMark_of_mem_marks hc)

/-- In a name of balanced brackets the subscript's are balanced, and none is a brace. -/
theorem balanced_content {content : Text} (h : s.symbol.subscript = some content) :
    Bracket.isBalanced content = true ∧ '\x7b' ∉ content := by
  have hbrace : '\x7d' ∉ content := s.subscript content h
  have hopen : ∀ {stack : List Char} {t : Text}, (∀ c ∈ t, Bracket.IsPlain c) →
      openAfter? stack t = some stack := fun ht =>
    openAfter?_of_plain fun c hc => ⟨(ht c hc).1, (ht c hc).2.1⟩
  have hname : openAfter? [] s.name = some [] := Bracket.isBalanced_iff.mp s.balanced
  rw [s.name_eq h, openAfter?_append, hopen s.isPlain_front] at hname
  have hinner : openAfter? ['\x7b'] (content ++ '\x7d' :: marks s.symbol.primes) = some [] :=
    hname
  rw [openAfter?_append] at hinner
  obtain ⟨stack, hcontent, hrest⟩ := Option.bind_eq_some_iff.mp hinner
  have hcontent' : openAfter? ([] ++ '\x7b' :: []) content = some stack := hcontent
  obtain ⟨above, habove, rfl⟩ := Bracket.openAfter?_above_brace hbrace hcontent'
  cases above with
  | nil =>
    refine ⟨Bracket.isBalanced_iff.mpr habove, List.count_eq_zero.mp ?_⟩
    simpa using (Bracket.count_openAfter? hbrace habove).symm
  | cons o above =>
    -- the brace would close a bracket of the content and leave the first one open
    simp [openAfter?, Bracket.isOpening, Bracket.isClosing, hopen (isPlain_marks _)] at hrest

theorem sealed : Sealed s.name := by
  cases h : s.symbol.subscript with
  | none =>
    have hname : s.name = s.symbol.letter :: marks s.symbol.primes := by
      simp [Identifier.name, Symbol.name, h]
    rw [hname]
    exact Bracket.sealed_of_plain
      (List.forall_mem_cons.mpr ⟨isPlain_of_isLetter s.letter, isPlain_marks _⟩)
  | some content =>
    have hbraces : Sealed ('\x7b' :: (content ++ ['\x7d'])) :=
      Bracket.sealed_bracketed rfl (s.balanced_content h).1
    have hmarks := Bracket.sealed_of_plain (isPlain_marks s.symbol.primes)
    rw [s.name_eq h]
    simpa using (Bracket.sealed_of_plain s.isPlain_front).append (hbraces.append hmarks)

end Identifier

theorem Fence.closing? (f : Fence) : Bracket.closing? f.left = some f.right := by
  cases f <;> rfl

theorem isPlain_sign (op : Operator) : Bracket.IsPlain op.sign := by
  cases op <;> exact ⟨rfl, rfl, by decide⟩

theorem Callee.sealed (f : Callee arities) : Sealed f.name := by
  cases f with
  | builtin name h =>
    have hchars : ∀ f ∈ Lexicon.builtin.functions, f.all isNameChar = true := by decide
    exact Bracket.sealed_of_plain fun c hc =>
      Bracket.isPlain_of_class (by decide) (List.all_eq_true.mp (hchars name h) c hc)
  | user s => exact s.sealed

/-! ### Rendered trees -/

section texts

variable (d : Decimal) (s : Identifier) (op : Operator) (f : Fence) (callee : Callee arities)

@[simp] theorem Terminal.text_number : (Terminal.number d : Terminal arities).text = d.digits :=
  List.append_nil _

@[simp] theorem Terminal.text_name : (Terminal.name s : Terminal arities).text = s.name :=
  List.append_nil _

@[simp] theorem Terminal.text_sign : (Terminal.sign op : Terminal arities).text = [op.sign] := rfl

@[simp] theorem Terminal.text_comma : (Terminal.comma : Terminal arities).text = [','] := rfl

@[simp] theorem Terminal.text_opening :
    (Terminal.opening f : Terminal arities).text = [f.left] := rfl

@[simp] theorem Terminal.text_closing :
    (Terminal.closing f : Terminal arities).text = [f.right] := rfl

@[simp] theorem Terminal.text_call : (Terminal.call callee).text = callee.name ++ ['('] := rfl

end texts

theorem Terminal.exists_not_blank (x : Terminal arities) :
    ∃ c ∈ x.text, Text.isBlank c = false := by
  have hsymbol : ∀ s : Identifier, ∃ c ∈ s.name, Text.isBlank c = false := fun s =>
    ⟨s.symbol.letter, List.mem_cons_self, isBlank_of_isLetter s.letter⟩
  cases x with
  | number d =>
    obtain ⟨c, hc⟩ := List.exists_mem_of_ne_nil _ d.ne_nil
    refine ⟨c, by simpa using hc, ?_⟩
    rcases (Bool.or_eq_true _ _).mp (d.of_mem hc) with h | h
    · exact Text.isBlank_of_isAsciiDigit h
    · obtain rfl := beq_iff_eq.mp h
      decide
  | name s => simpa using hsymbol s
  | sign op => exact ⟨op.sign, List.mem_cons_self, by cases op <;> decide⟩
  | comma => exact ⟨',', List.mem_cons_self, by decide⟩
  | opening f => exact ⟨f.left, List.mem_cons_self, by cases f <;> decide⟩
  | closing f => exact ⟨f.right, List.mem_cons_self, by cases f <;> decide⟩
  | call f => exact ⟨'(', by simp, by decide⟩

theorem sealed_of_spaced {w t : Text} (hw : Sealed w) (ht : Spaced [w] t) : Sealed t := by
  obtain ⟨blanks, u, rfl, hblanks, hu⟩ := ht.of_cons
  exact (sealed_of_blank hblanks).append (hw.append (sealed_of_blank hu.of_nil))

namespace Tree

variable {e : Tree arities} {es : List (Tree arities)} {t : Text}

theorem terminals_ne_nil (e : Tree arities) : e.terminals ≠ [] := by
  cases e <;> simp [terminals]

theorem Renders.not_blank (h : e.Renders t) : Text.isBlankText t = false := by
  obtain ⟨x, xs, hx⟩ := List.exists_cons_of_ne_nil e.terminals_ne_nil
  rw [Renders, hx, List.map_cons] at h
  obtain ⟨blanks, u, rfl, -, -⟩ := h.of_cons
  obtain ⟨c, hc, hblank⟩ := x.exists_not_blank
  rw [Text.isBlankText, List.all_eq_false]
  exact ⟨c, by simp [hc], by simp [hblank]⟩

/-- Arguments stand between commas. -/
theorem exists_join (hsealed : ∀ e ∈ es, ∀ t, e.Renders t → Sealed t) (hne : es ≠ [])
    (ht : Spaced ((terminalsOf es).map Terminal.text) t) :
    ∃ ts, t = Text.join [','] ts ∧ ts.length = es.length ∧
      ∀ u ∈ ts, Sealed u ∧ Text.isBlankText u = false := by
  induction es generalizing t with
  | nil => exact absurd rfl hne
  | cons e es ih =>
    obtain ⟨he, hes⟩ := List.forall_mem_cons.mp hsealed
    cases es with
    | nil => exact ⟨[t], rfl, rfl, by simpa using ⟨he t ht, Renders.not_blank ht⟩⟩
    | cons e' es =>
      rw [terminalsOf, List.map_append, List.map_cons] at ht
      obtain ⟨u, v, rfl, hu, hv⟩ := ht.of_append_cons
      obtain ⟨ts, rfl, hlength, hts⟩ := ih hes (by simp) hv
      obtain ⟨t, ts, rfl⟩ : ∃ t ts', ts = t :: ts' :=
        List.exists_cons_of_ne_nil (by rintro rfl; simp at hlength)
      refine ⟨u :: t :: ts, by simp [Text.join], by simpa using hlength, ?_⟩
      exact List.forall_mem_cons.mpr ⟨⟨he u hu, Renders.not_blank hu⟩, hts⟩

/-- What stands between the brackets of a call is balanced, and its arguments are counted. -/
theorem arguments (hsealed : ∀ e ∈ es, ∀ t, e.Renders t → Sealed t)
    (ht : Spaced ((terminalsOf es).map Terminal.text) t) :
    Bracket.isBalanced t = true ∧ ∀ pre u : Text,
      Bracket.argumentCount (pre ++ '(' :: (t ++ ')' :: u)) pre.length = es.length := by
  by_cases hne : es = []
  · subst hne
    have hblank : ∀ c ∈ t, Text.isBlank c = true := ht.of_nil
    have hbalanced := (sealed_of_blank hblank).balanced
    have hall : Text.isBlankText t = true := List.all_eq_true.mpr hblank
    refine ⟨hbalanced, fun pre u => ?_⟩
    rw [Bracket.argumentCount, Bracket.callExtent_of_isBalanced pre hbalanced,
      Bracket.countArguments, if_pos hall, List.length_nil]
  · obtain ⟨ts, rfl, hlength, hts⟩ := exists_join hsealed hne ht
    have hne' : ts ≠ [] := by
      rintro rfl
      exact hne (List.length_eq_zero_iff.mp hlength.symm)
    refine ⟨Bracket.isBalanced_join fun t ht => (hts t ht).1, fun pre u => ?_⟩
    rw [Bracket.argumentCount_join pre u hts hne', hlength]

/-- A rendered tree is sealed: its commas all stand between the brackets of calls and names. -/
theorem Renders.sealed (h : e.Renders t) : Sealed t := by
  induction e using Tree.induct generalizing t with
  | number d => exact sealed_of_spaced d.sealed (by simpa [Renders, terminals] using h)
  | name s => exact sealed_of_spaced s.sealed (by simpa [Renders, terminals] using h)
  | binary op a b iha ihb =>
    rw [Renders, terminals, List.map_append, List.map_cons] at h
    obtain ⟨u, v, rfl, hu, hv⟩ := h.of_append_cons
    have hsign := Bracket.sealed_of_plain (List.forall_mem_singleton.mpr (isPlain_sign op))
    exact (iha hu).append (hsign.append (ihb hv))
  | negative e ih =>
    obtain ⟨blanks, u, rfl, hblanks, hu⟩ := h.of_cons
    have hsign := Bracket.sealed_of_plain (List.forall_mem_singleton.mpr (isPlain_sign .minus))
    exact (sealed_of_blank hblanks).append (hsign.append (ih hu))
  | group f e ih =>
    rw [Renders, terminals, List.map_cons, List.map_append] at h
    obtain ⟨blanks, t, rfl, hblanks, ht⟩ := h.of_cons
    obtain ⟨u, behind, rfl, hu, hbehind⟩ := ht.of_append_cons
    have hfenced := Bracket.sealed_bracketed f.closing? (ih hu).balanced
    simpa using (sealed_of_blank hblanks).append (hfenced.append (sealed_of_blank hbehind.of_nil))
  | call f args ih =>
    rw [Renders, terminals, List.map_cons, List.map_append] at h
    obtain ⟨blanks, t, rfl, hblanks, ht⟩ := h.of_cons
    obtain ⟨u, behind, rfl, hu, hbehind⟩ := ht.of_append_cons
    have hfenced := Bracket.sealed_bracketed Fence.round.closing?
      (arguments (fun e he t => ih e he) hu).1
    simpa [Fence.left] using (sealed_of_blank hblanks).append
      (f.sealed.append (hfenced.append (sealed_of_blank hbehind.of_nil)))

end Tree

end Formulary.Formula
