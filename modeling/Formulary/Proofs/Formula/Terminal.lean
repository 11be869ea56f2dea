import Mathlib.Data.List.Chain
import Formulary.Proofs.Formula.Analysis
import Formulary.Proofs.Formula.Tree

/-! # Reading terminals

What follows a number or a name in a rendered tree does not go on with it, so each
terminal is cut off where it ends. Between neighbours there is nothing to multiply.
-/

namespace Formulary.Formula

open Text (Stops Spaced)

variable {arities : Arities} {t after : Text}

/-! ### Each terminal is read -/

/-- Characters that would go on with a number or a name. -/
def continues (c : Char) : Bool := isNameChar c || c == '.' || isMark c || c == '_'

theorem continues_of_isBlank {c : Char} (h : Text.isBlank c = true) : continues c = false := by
  have hne : ∀ d, Text.isBlank d = false → c ≠ d := by
    rintro d hd rfl
    simp [h] at hd
  have hdot := hne '.' (by decide)
  have hmark := hne '\'' (by decide)
  have hlow := hne '_' (by decide)
  simp [continues, isMark, isNameChar_of_isBlank h, hdot, hmark, hlow]

theorem takeNumber_stop {dotted : Bool} (h : Stops continues after) :
    takeNumber dotted after = ([], after) := by
  cases after with
  | nil => rfl
  | cons c after =>
    have hc := h c rfl
    simp only [continues, isNameChar, Bool.or_eq_false_iff, beq_eq_false_iff_ne] at hc
    simp [takeNumber, hc]

theorem takeNumber_digits {dotted : Bool} {ds : Text}
    (hds : ∀ d ∈ ds, Text.isAsciiDigit d = true) :
    takeNumber dotted (ds ++ after) =
      (ds ++ (takeNumber dotted after).1, (takeNumber dotted after).2) := by
  induction ds with
  | nil => rfl
  | cons d ds ih =>
    obtain ⟨hd, hds⟩ := List.forall_mem_cons.mp hds
    simp [takeNumber, hd, ih hds]

theorem Decimal.cut (d : Decimal) (ha : Stops continues after) :
    ∃ c w, d.digits = c :: w ∧ Cut .number c w after := by
  obtain ⟨digits, h⟩ := d
  have hdot : ∀ {c : Char}, Text.isAsciiDigit c = true → c ≠ '.' := by
    rintro c hc rfl
    exact absurd hc (by decide)
  cases h with
  | whole hne hds =>
    obtain ⟨c, w, rfl⟩ := List.exists_cons_of_ne_nil hne
    obtain ⟨hc, hw⟩ := List.forall_mem_cons.mp hds
    refine ⟨c, w, rfl, .number (by simp [startsNumber, hc]) ?_⟩
    simp [takeNumber_digits hw, takeNumber_stop ha]
  | @pointed ds fs hne hds =>
    have hfs : takeNumber true (fs ++ after) = (fs, after) := by
      rw [takeNumber_digits fun d hd => hds d (List.mem_append_right _ hd), takeNumber_stop ha,
        List.append_nil]
    cases ds with
    | nil =>
      obtain ⟨f, fs', rfl⟩ := List.exists_cons_of_ne_nil hne
      refine ⟨'.', f :: fs', rfl, .number ?_ hfs⟩
      simp [startsNumber, hds f (by simp)]
    | cons c ds =>
      have hc := hds c (by simp)
      refine ⟨c, ds ++ '.' :: fs, rfl, .number (by simp [startsNumber, hc]) ?_⟩
      have hpoint : takeNumber false ('.' :: (fs ++ after)) = ('.' :: fs, after) := by
        simp [takeNumber, hfs, Text.isAsciiDigit]
      rw [List.append_assoc, List.cons_append,
        takeNumber_digits fun d hd => hds d (by simp [hd]), decide_eq_false (hdot hc), hpoint]

/-- Read backwards, a content without braces is opened by the mark before it. -/
theorem opens_of_not_mem {content : Text} (hopen : '\x7b' ∉ content) (hclose : '\x7d' ∉ content) :
    Opens content := by
  have hread : ∀ {back : Text}, '\x7b' ∉ back → '\x7d' ∉ back → ∀ r,
      openSubscript? (back ++ '\x7b' :: '_' :: r) = some (back, r) := by
    intro back hopen hclose r
    induction back with
    | nil => rfl
    | cons c back ih =>
      rw [List.mem_cons, not_or] at hopen hclose
      rw [List.cons_append, openSubscript?, if_neg (Ne.symm hclose.1), ih hopen.2 hclose.2]
      · rfl
      · exact fun _ hc => absurd hc.symm hopen.1
  exact hread (by simpa using hopen) (by simpa using hclose)

/-- The name of a symbol is one atom where nothing goes on with it. -/
theorem Cut.name {s : Symbol} (hletter : isLetter s.letter = true)
    (hcontent : ∀ content ∈ s.subscript, '\x7d' ∉ content) (ha : Stops continues after) :
    Cut .atom s.letter s.name.tail after := by
  have hmark : Stops isMark after := by
    intro c hc
    have hstop := ha c hc
    simp only [continues, Bool.or_eq_false_iff] at hstop
    exact hstop.1.2
  obtain ⟨letter, subscript, n⟩ := s
  cases subscript with
  | none =>
    refine .letter n hletter hmark fun _ body he => ?_
    exact absurd (ha '_' (by simp [he])) (by decide)
  | some content => exact .subscripted n hletter (hcontent content rfl) hmark

namespace Identifier

variable (s : Identifier)

theorem cut (ha : Stops continues after) : ∃ c w, s.name = c :: w ∧ Cut .atom c w after :=
  ⟨_, _, rfl, .name s.letter s.subscript ha⟩

theorem callName : CallName [] s.name := by
  cases h : s.symbol.subscript with
  | none =>
    have hname : s.name = s.symbol.letter :: marks s.symbol.primes := by
      simp [Identifier.name, Symbol.name, h]
    rw [hname]
    cases s.symbol.primes with
    | zero => exact .run s.letter (by simp) (by simp)
    | succ n => exact .marked n s.letter
  | some content =>
    have hname : s.name =
        s.symbol.letter :: (Symbol.subscriptText content ++ marks s.symbol.primes) := by
      simp [Identifier.name, Symbol.name, h]
    rw [hname]
    exact .subscripted s.symbol.primes s.letter (s.subscript content h)
      (opens_of_not_mem (s.balanced_content h).2 (s.subscript content h))

theorem stops_tail : Stops isNameChar s.name.tail := by
  have hmarks : Stops isNameChar (marks s.symbol.primes ++ []) :=
    stops_marks_append _ (by decide) (by simp [Stops])
  cases h : s.symbol.subscript with
  | none => simpa [Identifier.name, Symbol.name, h] using hmarks
  | some content =>
    have hmark : isNameChar '_' = false := by decide
    simpa [Identifier.name, Symbol.name, h, Symbol.subscriptText, Stops] using hmark

/-- The names of built-in functions have a second letter. -/
theorem isFunction_name : Lexicon.builtin.isFunction s.name = false := by
  have hsecond : ∀ f ∈ Lexicon.builtin.functions, f.tail.head?.any isNameChar = true := by decide
  rw [Bool.eq_false_iff]
  intro h
  have hname := hsecond s.name (List.contains_iff_mem.mp h)
  obtain ⟨c, hc, hletter⟩ := (Option.any_eq_true _ _).mp hname
  simp [s.stops_tail c hc] at hletter

end Identifier

namespace Callee

variable (f : Callee arities)

theorem callName : CallName [] f.name := by
  cases f with
  | user s => exact s.callName
  | builtin name h =>
    have hchars : ∀ f ∈ Lexicon.builtin.functions,
        f.head?.any isLetter = true ∧ f.all isNameChar = true := by decide
    obtain ⟨hhead, hall⟩ := hchars name h
    cases name with
    | nil => simp at hhead
    | cons c more =>
      have hmore := List.all_eq_true.mp hall
      exact .run (by simpa using hhead) (fun d hd => hmore d (List.mem_cons_of_mem c hd)) (by simp)

theorem isCallable : isCallable Lexicon.builtin arities.names f.name = true := by
  cases f with
  | builtin name h => exact isCallable_iff.mpr (Or.inl (List.contains_iff_mem.mpr h))
  | user s arity h =>
    exact isCallable_iff.mpr (Or.inr (Arities.isSome_get?.mp (by simp [name, h])))

end Callee

/-! ### Terminals in sequence -/

namespace Terminal

/-- The kind of the first piece. -/
def first : Terminal arities → TokenKind
  | .number _ => .number
  | .name _ => .atom
  | .sign _ | .comma => .other
  | .opening _ => .opening
  | .closing _ => .closing
  | .call _ => .func

/-- The kind of the last piece. -/
def last : Terminal arities → TokenKind
  | .call _ => .opening
  | x => x.first

/-- There is nothing to multiply between the terminals. -/
def Precedes (x y : Terminal arities) : Prop := multiplies x.last y.first = false

theorem first_pieces (x : Terminal arities) : (x.pieces.head?.map (·.1)) = some x.first := by
  cases x <;> rfl

variable {x y : Terminal arities} {xs ys : List (Terminal arities)}

theorem isChain_cons (hx : endsOperand x.last = false) (h : xs.IsChain Precedes) :
    (x :: xs).IsChain Precedes := by
  refine List.isChain_cons.mpr ⟨fun y _ => ?_, h⟩
  simp [Precedes, multiplies, hx]

theorem isChain_append_cons (hy : startsOperand y.first = false) (hxs : xs.IsChain Precedes)
    (hys : (y :: ys).IsChain Precedes) : (xs ++ y :: ys).IsChain Precedes := by
  refine List.isChain_append.mpr ⟨hxs, hys, fun x _ z hz => ?_⟩
  obtain rfl : y = z := by simpa using hz
  simp [Precedes, multiplies, hy]

/-- Behind a number or a name stands a sign, a comma or a closing bracket. -/
theorem stops_of_isChain (hx : endsOperand x.last = true) (h : (x :: xs).IsChain Precedes)
    (ht : Spaced (xs.map text) t) : Stops continues t := by
  have hblanks : ∀ {blanks u : Text}, (∀ c ∈ blanks, Text.isBlank c = true) →
      Stops continues u → Stops continues (blanks ++ u) := by
    intro blanks u hblanks hu
    cases blanks with
    | nil => exact hu
    | cons c blanks =>
      exact Text.stops_append (by simp) fun c hc => continues_of_isBlank (hblanks c hc)
  cases xs with
  | nil =>
    rw [← List.append_nil t]
    exact hblanks ht.of_nil (by simp [Stops])
  | cons y xs =>
    obtain ⟨hy, -⟩ := List.isChain_cons_cons.mp h
    have hstarts : startsOperand y.first = false := by simpa [Precedes, multiplies, hx] using hy
    obtain ⟨blanks, u, rfl, hb, -⟩ := Spaced.of_cons ht
    refine hblanks hb ?_
    cases y with
    | sign op => cases op <;> simp [Stops] <;> decide
    | comma => simp [Stops]; decide
    | closing f => cases f <;> simp [Stops] <;> decide
    | _ => simp [first, startsOperand] at hstarts

/-- A terminal that is no call is cut off as one piece. -/
theorem exists_cut (hx : ∀ f, x ≠ .call f)
    (ha : endsOperand x.last = true → Stops continues after) :
    ∃ c w, x.pieces = [(x.first, c :: w)] ∧ Cut x.first c w after := by
  have hother : ∀ {c : Char}, IsOther c → c ≠ '.' → Cut .other c [] after := fun hc hdot =>
    .other hc fun h => absurd h hdot
  cases x with
  | number d =>
    obtain ⟨c, w, hd, hcut⟩ := d.cut (ha rfl)
    exact ⟨c, w, by simp [pieces, first, hd], hcut⟩
  | name s =>
    obtain ⟨c, w, hs, hcut⟩ := s.cut (ha rfl)
    exact ⟨c, w, by simp [pieces, first, hs], hcut⟩
  | sign op =>
    refine ⟨op.sign, [], rfl, hother ?_ (by cases op <;> decide)⟩
    cases op <;> exact ⟨by decide, by decide, by decide, by decide, by decide⟩
  | comma =>
    exact ⟨',', [], rfl, hother ⟨by decide, by decide, by decide, by decide, by decide⟩ (by decide)⟩
  | opening f => exact ⟨f.left, [], rfl, .opening (by cases f <;> rfl)⟩
  | closing f => exact ⟨f.right, [], rfl, .closing (by cases f <;> rfl)⟩
  | call f => exact absurd rfl (hx f)

theorem first_ne (hx : ∀ f, x ≠ .call f) :
    x.first ≠ .func ∧ x.first ≠ .space ∧ x.last = x.first := by
  cases x with
  | call f => exact absurd rfl (hx f)
  | _ => simp [first, last]

end Terminal

end Formulary.Formula
