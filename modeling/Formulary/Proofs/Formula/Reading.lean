import Formulary.Proofs.Formula.Stars
import Formulary.Proofs.Formula.Terminal

/-! # Reading rendered trees

The pieces of a tree's terminals are the tokens of every text that renders the tree. So
names and calls are found as the tree has them, and there is no product to write out.
-/

namespace Formulary.Formula

open Text (Stops Spaced)

variable {arities : Arities} {t : Text}

/-! ### Calls -/

def Call.record (c : Call) : Record := (c.name, c.given, c.expected)

/-- What is recorded of the calls among the tokens. -/
def recordsIn (arities : Arities) (t : Text) (ks : List Token) : List Record :=
  (ks.filterMap (callOf? Lexicon.builtin arities t)).map Call.record

theorem recordsIn_append (ks ls : List Token) :
    recordsIn arities t (ks ++ ls) = recordsIn arities t ks ++ recordsIn arities t ls := by
  simp [recordsIn]

theorem lay_append (i : Nat) (ps qs : List Piece) :
    lay i (ps ++ qs) = lay i ps ++ lay (i + (written ps).length) qs := by
  induction ps generalizing i with
  | nil => simp [lay]
  | cons p ps ih => simp [lay, ih, Nat.add_assoc]

theorem recordsIn_lay {ps : List Piece} (hps : ∀ p ∈ ps, p.1 ≠ .func) (i : Nat) :
    recordsIn arities t (lay i ps) = [] := by
  induction ps generalizing i with
  | nil => rfl
  | cons p ps ih =>
    obtain ⟨hp, hps⟩ := List.forall_mem_cons.mp hps
    have hnone : callOf? Lexicon.builtin arities t ⟨p.1, p.2, i⟩ = none := by simp [callOf?, hp]
    have hrest := ih hps (i + p.2.length)
    unfold recordsIn at hrest ⊢
    rw [lay, List.filterMap_cons_none hnone, hrest]

/-- A call is recorded as the text behind its bracket has it. -/
theorem recordsIn_call (f : Callee arities) {pre u : Text} {n : Nat}
    (hcount : ∀ pre : Text, Bracket.argumentCount (pre ++ '(' :: u) pre.length = n) :
    recordsIn arities (pre ++ (f.name ++ '(' :: u)) [⟨.func, f.name, pre.length⟩] = f.record n := by
  cases f with
  | builtin name h =>
    have hname : Lexicon.builtin.isFunction name = true := List.contains_iff_mem.mpr h
    simp [recordsIn, callOf?, Callee.name, Callee.record, hname]
  | user s arity h =>
    have hopening : Text.find? (pre ++ (s.name ++ '(' :: u)) '(' (pre.length + s.name.length) =
        some (pre.length + s.name.length) := by
      rw [← List.append_assoc, ← List.length_append, Text.find?, List.drop_left]
      simp [List.findIdx?_cons]
    have hgiven := hcount (pre ++ s.name)
    rw [List.append_assoc, List.length_append] at hgiven
    simp [recordsIn, callOf?, Callee.name, Callee.record, s.isFunction_name, hopening, hgiven, h,
      Call.record]

/-- The terminals of a text whose calls are these: each has so many arguments, whatever blanks
stand between the terminals behind it. -/
inductive Counted : List (Terminal arities) → List Record → Prop
  | nil : Counted [] []
  | plain {x : Terminal arities} {xs : List (Terminal arities)} {rs : List Record}
      (hx : ∀ f, x ≠ .call f) (h : Counted xs rs) : Counted (x :: xs) rs
  | call {f : Callee arities} {xs : List (Terminal arities)} {rs : List Record} {n : Nat}
      (hcount : ∀ u, Spaced (xs.map Terminal.text) u →
        ∀ pre : Text, Bracket.argumentCount (pre ++ '(' :: u) pre.length = n)
      (h : Counted xs rs) : Counted (.call f :: xs) (f.record n ++ rs)

/-- The pieces of a text whose terminals are these, with what is recorded of the calls. -/
structure Layout (xs : List (Terminal arities)) (rs : List Record) (t : Text) (ps : List Piece) :
    Prop where
  reads : Reads (isCallable Lexicon.builtin arities.names) ps
  apart : Apart ps
  written : written ps = t
  solid : solid ps = xs.flatMap Terminal.pieces
  records : ∀ pre : Text, recordsIn arities (pre ++ t) (lay pre.length ps) = rs

namespace Layout

variable {xs : List (Terminal arities)} {x : Terminal arities} {rs : List Record} {ps : List Piece}
  {blanks : Text}

theorem gap_ne_func : ∀ p ∈ gap blanks, p.1 ≠ .func := by
  unfold gap
  split <;> simp

theorem nil (hblanks : ∀ b ∈ blanks, Text.isBlank b = true) :
    Layout ([] : List (Terminal arities)) [] blanks (gap blanks) where
  reads := by
    have hwaits : Waits blanks [] := ⟨hblanks, by simp [Stops]⟩
    exact (Reads.nil.spread hwaits : Reads _ (spread none blanks []))
  apart := apart_gap
  written := written_gap
  solid := solid_gap
  records _ := recordsIn_lay gap_ne_func _

/-- Blanks in front change nothing. -/
theorem after_blanks {p : Piece} (h : Layout xs rs t (p :: ps)) (hp : p.1 ≠ .space)
    (hblanks : ∀ b ∈ blanks, Text.isBlank b = true) :
    Layout xs rs (blanks ++ t) (gap blanks ++ p :: ps) where
  reads := (h.reads.between hp hblanks : Reads _ (between none blanks p.1 ++ p :: ps))
  apart := (apart_between_append h.apart : Apart (between none blanks p.1 ++ p :: ps))
  written := by rw [written_append, written_gap, h.written]
  solid := by rw [solid_append, solid_gap, h.solid, List.nil_append]
  records pre := by
    have hrest := h.records (pre ++ blanks)
    rw [List.append_assoc, List.length_append] at hrest
    rw [lay_append, recordsIn_append, recordsIn_lay gap_ne_func, written_gap, hrest,
      List.nil_append]

theorem apartFrom (h : Layout xs rs t ps) (hchain : (x :: xs).IsChain Terminal.Precedes) :
    ApartFrom (some x.last) ps := by
  intro l hl k hk
  obtain rfl : x.last = l := by simpa using hl
  rw [nextKind?, ← List.head?_filter] at hk
  have hsolid : (xs.flatMap Terminal.pieces).head?.map (·.1) = some k := by
    rw [← h.solid]
    exact hk
  cases xs with
  | nil => simp at hsolid
  | cons y xs =>
    obtain ⟨hy, -⟩ := List.isChain_cons_cons.mp hchain
    have hfirst := y.first_pieces
    rw [List.flatMap_cons, List.head?_append, Option.map_or, hfirst] at hsolid
    obtain rfl : y.first = k := by simpa using hsolid
    exact hy

/-- A terminal that is no call comes in front as one piece. -/
theorem plain (h : Layout xs rs t ps) (hx : ∀ f, x ≠ .call f)
    (hchain : (x :: xs).IsChain Terminal.Precedes) (ht : Spaced (xs.map Terminal.text) t) :
    ∃ p, p.1 ≠ .space ∧ Layout (x :: xs) rs (x.text ++ t) (p :: ps) := by
  have hstops : endsOperand x.last = true → Stops continues t := fun hlast =>
    Terminal.stops_of_isChain hlast hchain ht
  obtain ⟨c, w, hpieces, hcut⟩ := Terminal.exists_cut hx hstops
  obtain ⟨hfunc, hspace, hlast⟩ := Terminal.first_ne hx
  have htext : x.text = c :: w := by simp [Terminal.text, hpieces]
  refine ⟨(x.first, c :: w), hspace, ?_⟩
  constructor
  · exact .plain (h.written ▸ hcut) h.reads
  · exact ⟨hlast ▸ h.apartFrom hchain, h.apart⟩
  · rw [written_cons, h.written, htext]
  · rw [solid_cons hspace, h.solid, List.flatMap_cons, hpieces, List.singleton_append]
  · intro pre
    have hrest := h.records (pre ++ x.text)
    have hnone : recordsIn arities (pre ++ (x.text ++ t))
        (lay pre.length [(x.first, c :: w)]) = [] :=
      recordsIn_lay (by simpa using hfunc) _
    rw [List.append_assoc, List.length_append] at hrest
    rw [← List.singleton_append, lay_append, recordsIn_append, hnone, written_cons, written_nil,
      List.append_nil, ← htext, hrest, List.nil_append]

/-- A call comes in front as its name and its bracket. -/
theorem call (f : Callee arities) {n : Nat} (h : Layout xs rs t ps)
    (hcount : ∀ pre : Text, Bracket.argumentCount (pre ++ '(' :: t) pre.length = n) :
    Layout (.call f :: xs) (f.record n ++ rs) ((Terminal.call f).text ++ t)
      ((.func, f.name) :: (.opening, ['(']) :: ps) where
  reads := by
    have hopening : Reads (isCallable Lexicon.builtin arities.names) ((.opening, ['(']) :: ps) :=
      .plain (.opening rfl) h.reads
    exact .call f.callName f.isCallable rfl hopening
  apart := (h.apart.cons rfl).cons rfl
  written := by
    rw [written_cons, written_cons, h.written]
    simp
  solid := by
    rw [solid_cons (by simp), solid_cons (by simp), h.solid]
    rfl
  records pre := by
    have htext : (Terminal.call f).text ++ t = f.name ++ '(' :: t := by simp
    have hopening : recordsIn arities (pre ++ (f.name ++ '(' :: t))
        (lay (pre.length + f.name.length) [(.opening, ['('])]) = [] := recordsIn_lay (by simp) _
    have hrest := h.records (pre ++ (f.name ++ ['(']))
    have hsplit : lay pre.length ((.func, f.name) :: (.opening, ['(']) :: ps) =
        [⟨.func, f.name, pre.length⟩] ++ (lay (pre.length + f.name.length) [(.opening, ['('])] ++
          lay (pre ++ (f.name ++ ['('])).length ps) := by
      simp [lay, Nat.add_assoc]
    rw [List.append_assoc, List.append_assoc, List.singleton_append] at hrest
    rw [htext, hsplit, recordsIn_append, recordsIn_append, recordsIn_call f hcount, hopening, hrest,
      List.nil_append]

end Layout

/-- The texts that space the terminals have a layout. -/
theorem Counted.exists_layout {xs : List (Terminal arities)} {rs : List Record} (h : Counted xs rs)
    (hchain : xs.IsChain Terminal.Precedes) (ht : Spaced (xs.map Terminal.text) t) :
    ∃ ps, Layout xs rs t ps := by
  induction h generalizing t with
  | nil => exact ⟨gap t, .nil ht.of_nil⟩
  | plain hx _ ih =>
    obtain ⟨blanks, u, rfl, hblanks, hu⟩ := Spaced.of_cons ht
    obtain ⟨ps, hps⟩ := ih hchain.tail hu
    obtain ⟨p, hp, hlayout⟩ := hps.plain hx hchain hu
    exact ⟨_, hlayout.after_blanks hp hblanks⟩
  | call hcount _ ih =>
    obtain ⟨blanks, u, rfl, hblanks, hu⟩ := Spaced.of_cons ht
    obtain ⟨ps, hps⟩ := ih hchain.tail hu
    exact ⟨_, (hps.call _ (hcount u hu)).after_blanks (by simp) hblanks⟩

/-! ### Trees -/

namespace Tree

variable {e : Tree arities} {xs : List (Terminal arities)} {rs : List Record}

theorem isChain_terminalsOf {es : List (Tree arities)}
    (hes : ∀ e ∈ es, e.terminals.IsChain Terminal.Precedes) :
    (terminalsOf es).IsChain Terminal.Precedes := by
  induction es with
  | nil => exact .nil
  | cons e es ih =>
    obtain ⟨he, hes⟩ := List.forall_mem_cons.mp hes
    cases es with
    | nil => exact he
    | cons e' es => exact Terminal.isChain_append_cons rfl he (Terminal.isChain_cons rfl (ih hes))

/-- In a tree two operands never stand side by side. -/
theorem isChain_terminals (e : Tree arities) : e.terminals.IsChain Terminal.Precedes := by
  induction e using Tree.induct with
  | number d => exact .singleton _
  | name s => exact .singleton _
  | binary op a b iha ihb =>
    exact Terminal.isChain_append_cons rfl iha (Terminal.isChain_cons rfl ihb)
  | negative e ih => exact Terminal.isChain_cons rfl ih
  | group f e ih =>
    exact Terminal.isChain_cons rfl (Terminal.isChain_append_cons rfl ih (.singleton _))
  | call f args ih =>
    exact Terminal.isChain_cons rfl
      (Terminal.isChain_append_cons rfl (isChain_terminalsOf ih) (.singleton _))

theorem counted_terminalsOf {es : List (Tree arities)}
    (hes : ∀ e ∈ es, ∀ {xs rs}, Counted xs rs → Counted (e.terminals ++ xs) (e.records ++ rs))
    (h : Counted xs rs) : Counted (terminalsOf es ++ xs) (recordsOf es ++ rs) := by
  induction es generalizing xs rs with
  | nil => exact h
  | cons e es ih =>
    obtain ⟨he, hes⟩ := List.forall_mem_cons.mp hes
    have hrest := ih hes h
    rw [recordsOf, List.append_assoc]
    cases es with
    | nil => exact he hrest
    | cons e' es =>
      rw [terminalsOf, List.append_assoc, List.cons_append]
      exact he (.plain (by simp) hrest)

/-- The calls of a tree have as many arguments as the tree has them, in the order of the tree. -/
theorem counted_terminals (e : Tree arities) (h : Counted xs rs) :
    Counted (e.terminals ++ xs) (e.records ++ rs) := by
  induction e using Tree.induct generalizing xs rs with
  | number d => exact .plain (by simp) h
  | name s => exact .plain (by simp) h
  | binary op a b iha ihb =>
    rw [terminals, records, List.append_assoc, List.append_assoc, List.cons_append]
    exact iha (.plain (by simp) (ihb h))
  | negative e ih => exact .plain (by simp) (ih h)
  | group f e ih =>
    rw [terminals, List.cons_append, List.append_assoc]
    exact .plain (by simp) (ih (.plain (by simp) h))
  | call f args ih =>
    have hclosing : Counted (.closing .round :: xs) rs := .plain (by simp) h
    have hargs := counted_terminalsOf (fun e he _ _ => ih e he) hclosing
    rw [terminals, records, List.cons_append, List.append_assoc, List.append_assoc]
    refine .call (fun u hu pre => ?_) hargs
    rw [List.map_append] at hu
    obtain ⟨inner, behind, rfl, hinner, -⟩ := hu.of_append_cons
    exact (arguments (fun _ _ _ => Renders.sealed) hinner).2 pre behind

theorem textsOf_flatMap_terminalsOf {es : List (Tree arities)}
    (hes : ∀ e ∈ es, textsOf .atom (e.terminals.flatMap Terminal.pieces) = e.leaves) :
    textsOf .atom ((terminalsOf es).flatMap Terminal.pieces) = leavesOf es := by
  induction es with
  | nil => rfl
  | cons e es ih =>
    obtain ⟨he, hes⟩ := List.forall_mem_cons.mp hes
    have hrest := ih hes
    cases es with
    | nil => simpa [terminalsOf, leavesOf] using he
    | cons e' es =>
      rw [terminalsOf, List.flatMap_append, textsOf_append, he, List.flatMap_cons, textsOf_append,
        hrest]
      rfl

/-- The names among the pieces are the leaves. -/
theorem textsOf_terminals (e : Tree arities) :
    textsOf .atom (e.terminals.flatMap Terminal.pieces) = e.leaves := by
  induction e using Tree.induct with
  | number d => rfl
  | name s => rfl
  | binary op a b iha ihb =>
    rw [terminals, List.flatMap_append, textsOf_append, iha, List.flatMap_cons, textsOf_append, ihb]
    rfl
  | negative e ih =>
    rw [terminals, List.flatMap_cons, textsOf_append, ih]
    rfl
  | group f e ih =>
    rw [terminals, List.flatMap_cons, textsOf_append, List.flatMap_append, textsOf_append, ih]
    exact List.append_nil _
  | call f args ih =>
    rw [terminals, List.flatMap_cons, textsOf_append, List.flatMap_append, textsOf_append,
      textsOf_flatMap_terminalsOf ih]
    exact List.append_nil _

theorem Renders.exists_layout {e : Tree arities} (h : e.Renders t) :
    ∃ ps, Layout e.terminals e.records t ps := by
  have hcounted : Counted e.terminals e.records := by simpa using e.counted_terminals .nil
  exact hcounted.exists_layout e.isChain_terminals h

/-- Read from a text that renders a tree, the free symbols are its leaves, each once and in order,
but for bound and reserved names; the calls of user functions are its calls, each with the arguments
given and expected; and no product has to be written out. -/
theorem read_of_renders {e : Tree arities} (h : e.Renders t) :
    (∀ complex bound, freeSymbols Lexicon.builtin complex bound arities.names t =
      e.leaves.eraseDups.filter fun a =>
        !bound.contains a && !Lexicon.builtin.isConstant complex a) ∧
    (calls Lexicon.builtin arities t).map Call.record = e.records ∧
    withProducts Lexicon.builtin arities.names t = t := by
  obtain ⟨ps, hps⟩ := h.exists_layout
  have htokens : tokens Lexicon.builtin arities.names t = lay 0 ps := by
    rw [← hps.written]
    exact tokens_written hps.reads hps.apart
  refine ⟨fun complex bound => ?_, ?_, ?_⟩
  · have hatoms : ((lay 0 ps).filter fun k => k.kind = .atom).map Token.text = e.leaves := by
      rw [← textsOf_significant (by decide), significant_lay, hps.solid, e.textsOf_terminals]
    rw [freeSymbols, htokens, hatoms, Text.dedup_eq_eraseDups, Text.eraseDups_filter]
  · have hrecords := hps.records []
    rw [calls, callsAmong, htokens]
    exact hrecords
  · exact WrittenOut.withProducts ⟨ps, hps.reads, hps.apart, hps.written⟩

/-- A comma in a subscript, a group and a constant among the arguments of a call, with blanks. -/
theorem read_rendered_call :
    let t := text "2 * f(x_{a,b} ,[π])"
    let arities : Arities := [(text "f", 2)]
    freeSymbols Lexicon.builtin false [] arities.names t = [text "x_{a,b}"] ∧
      (calls Lexicon.builtin arities t).map Call.record = [(text "f", 2, some 2)] ∧
      withProducts Lexicon.builtin arities.names t = t := by
  intro t arities
  let two : Decimal := ⟨text "2", .whole (by decide) (by simp [text, Text.isAsciiDigit])⟩
  let x : Identifier := ⟨⟨'x', some (text "a,b"), 0⟩, by decide, by decide, by decide⟩
  let pi : Identifier := ⟨⟨'π', none, 0⟩, by decide, by decide, by decide⟩
  let f : Callee arities := .user ⟨⟨'f', none, 0⟩, by decide, by decide, by decide⟩ 2 (by decide)
  let e : Tree arities :=
    .binary .times (.number two) (.call f [.name x, .group .square (.name pi)])
  have hrenders : e.Renders t := by
    have hb : Text.isBlank ' ' = true := by decide
    have hend : Spaced ([[']'], [')']] : List Text) (text "])") := .flatten _
    exact .front (.blank hb (.front (.blank hb (.front (.front
      (.blank hb (.front (.front (.front hend)))))))))
  obtain ⟨hfree, hcalls, hproducts⟩ := read_of_renders hrenders
  refine ⟨(hfree false []).trans ?_, hcalls, hproducts⟩
  decide +kernel

end Tree

end Formulary.Formula
