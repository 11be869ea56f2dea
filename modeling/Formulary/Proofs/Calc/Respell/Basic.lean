import Mathlib.Algebra.Order.Ring.Int
import Mathlib.Algebra.Order.Ring.Rat
import Mathlib.Data.List.Lex
import Mathlib.Data.Nat.Cast.Order.Ring
import Formulary.Calc.Approx
import Formulary.Proofs.Calc.Over.Basic
import Formulary.Proofs.Text.Distinct

/-! # Identifiers spelled in another way

Expressions keep their members in an order that depends on how symbols are spelled.
A respelling keeps the order of all texts. The modules after this one show that each
operation on respelled expressions gives what it gives otherwise, respelled.
-/

namespace Formulary

/-- Another spelling for every identifier, in which identifiers come in the same order. -/
structure Respelling where
  spell : Text → Text
  le_spell : ∀ s t, Text.le (spell s) (spell t) = Text.le s t

namespace Respelling

variable (ρ : Respelling) {s t : Text}

@[grind inj] theorem spell_injective : Function.Injective ρ.spell := by
  intro s t h
  have hself : Text.le s s = true := (Text.le_total s s).elim id id
  have hst : Text.le s t = Text.le s s := by rw [← ρ.le_spell, ← h, ρ.le_spell]
  have hts : Text.le t s = Text.le s s := by rw [← ρ.le_spell, ← h, ρ.le_spell]
  exact Text.le_antisymm (hst.trans hself) (hts.trans hself)

/-- Everything is spelled as before. -/
def refl : Respelling := ⟨id, fun _ _ => rfl⟩

@[simp] theorem spell_inj : ρ.spell s = ρ.spell t ↔ s = t := ρ.spell_injective.eq_iff

end Respelling

namespace Expr

variable {ρ : Respelling} {a b e f : Expr} {es fs : List Expr} {s : Scalar} {c : Const} {id : Text}

/-- The expression with its symbols respelled. -/
@[grind =] def respell (ρ : Respelling) : Expr → Expr
  | .sym id => .sym (ρ.spell id)
  | .add a b => .add (respell ρ a) (respell ρ b)
  | .mul a b => .mul (respell ρ a) (respell ρ b)
  | .pow a b => .pow (respell ρ a) (respell ρ b)
  | .fn f a => .fn f (respell ρ a)
  | .fn2 f a b => .fn2 f (respell ρ a) (respell ρ b)
  | .pair a b => .pair (respell ρ a) (respell ρ b)
  | .unknown name a => .unknown name (respell ρ a)
  | .num s => .num s
  | .const c => .const c
  | .interval => .interval
  | .failed f => .failed f

@[grind inj] theorem respell_injective : Function.Injective (respell ρ) := by
  intro a b h
  induction a generalizing b <;> cases b <;> grind [Respelling.spell_inj]

@[simp] theorem respell_inj : respell ρ a = respell ρ b ↔ a = b := respell_injective.eq_iff

/-! ### Where a constructor comes from -/

theorem of_respell_eq_num (h : respell ρ e = .num s) : e = .num s := by
  cases e <;> simp_all [respell]

theorem of_respell_eq_const (h : respell ρ e = .const c) : e = .const c := by
  cases e <;> simp_all [respell]

theorem of_respell_eq_interval (h : respell ρ e = .interval) : e = .interval := by
  cases e <;> simp_all [respell]

theorem of_respell_eq_add (h : respell ρ e = .add a b) :
    ∃ x y, e = .add x y ∧ respell ρ x = a ∧ respell ρ y = b := by
  cases e <;> simp_all [respell]

theorem of_respell_eq_mul (h : respell ρ e = .mul a b) :
    ∃ x y, e = .mul x y ∧ respell ρ x = a ∧ respell ρ y = b := by
  cases e <;> simp_all [respell]

theorem of_respell_eq_pow (h : respell ρ e = .pow a b) :
    ∃ x y, e = .pow x y ∧ respell ρ x = a ∧ respell ρ y = b := by
  cases e <;> simp_all [respell]

theorem of_respell_eq_fn {g : Fn} (h : respell ρ e = .fn g a) :
    ∃ x, e = .fn g x ∧ respell ρ x = a := by
  cases e <;> simp_all [respell]

theorem of_respell_eq_fn2 {g : Fn2} (h : respell ρ e = .fn2 g a b) :
    ∃ x y, e = .fn2 g x y ∧ respell ρ x = a ∧ respell ρ y = b := by
  cases e <;> simp_all [respell]

theorem of_respell_eq_pair (h : respell ρ e = .pair a b) :
    ∃ x y, e = .pair x y ∧ respell ρ x = a ∧ respell ρ y = b := by
  cases e <;> simp_all [respell]

theorem of_respell_eq_unknown {name : Text} (h : respell ρ e = .unknown name a) :
    ∃ x, e = .unknown name x ∧ respell ρ x = a := by
  cases e <;> simp_all [respell]

theorem of_map_respell_eq_nil (h : es.map (respell ρ) = []) : es = [] := List.map_eq_nil_iff.mp h

theorem of_map_respell_eq_cons (h : es.map (respell ρ) = a :: fs) :
    ∃ x xs, es = x :: xs ∧ respell ρ x = a ∧ xs.map (respell ρ) = fs :=
  List.map_eq_cons_iff.mp h

attribute [grind →] of_map_respell_eq_nil of_map_respell_eq_cons of_respell_eq_num
  of_respell_eq_const of_respell_eq_interval of_respell_eq_add of_respell_eq_mul
  of_respell_eq_pow of_respell_eq_fn of_respell_eq_fn2 of_respell_eq_pair of_respell_eq_unknown

/-! ### Members -/

@[simp, grind =] theorem terms_respell (e : Expr) :
    terms (respell ρ e) = (terms e).map (respell ρ) := by
  induction e with
  | add a b iha ihb => simp [respell, terms, iha, ihb]
  | _ => rfl

@[simp, grind =] theorem factors_respell (e : Expr) :
    factors (respell ρ e) = (factors e).map (respell ρ) := by
  induction e with
  | mul a b iha ihb => simp [respell, factors, iha, ihb]
  | _ => rfl

@[simp, grind =] theorem isConstant_respell (e : Expr) :
    isConstant (respell ρ e) = isConstant e := by
  induction e with
  | add a b iha ihb | mul a b iha ihb | pow a b iha ihb | fn2 g a b iha ihb =>
    simp [respell, isConstant, iha, ihb]
  | fn g a ih => simp [respell, isConstant, ih]
  | _ => rfl

@[simp, grind =] theorem hasSingular_respell (e : Expr) :
    hasSingular (respell ρ e) = hasSingular e := by
  induction e with
  | add a b iha ihb | mul a b iha ihb | pow a b iha ihb | fn2 g a b iha ihb | pair a b iha ihb =>
    simp [respell, hasSingular, iha, ihb]
  | fn g a ih | unknown name a ih => simp [respell, hasSingular, ih]
  | _ => rfl

@[simp, grind =] theorem size_respell (e : Expr) : size (respell ρ e) = size e := by
  induction e with
  | add a b iha ihb | mul a b iha ihb | pow a b iha ihb | fn2 g a b iha ihb | pair a b iha ihb =>
    simp [respell, size, iha, ihb]
  | fn g a ih | unknown name a ih => simp [respell, size, ih]
  | _ => rfl

@[simp, grind =] theorem mentions_respell (e : Expr) :
    mentions c (respell ρ e) = mentions c e := by
  induction e with
  | add a b iha ihb | mul a b iha ihb | pow a b iha ihb | fn2 g a b iha ihb | pair a b iha ihb =>
    simp [respell, mentions, iha, ihb]
  | fn g a ih | unknown name a ih => simp [respell, mentions, ih]
  | _ => rfl

@[simp, grind =] theorem symbols_respell (e : Expr) :
    symbols (respell ρ e) = (symbols e).map ρ.spell := by
  induction e with
  | add a b iha ihb | mul a b iha ihb | pow a b iha ihb | fn2 g a b iha ihb | pair a b iha ihb =>
    simp [respell, symbols, iha, ihb]
  | fn g a ih | unknown name a ih => simp [respell, symbols, ih]
  | _ => rfl

@[simp, grind =] theorem scalar?_respell (e : Expr) : scalar? (respell ρ e) = scalar? e := by
  cases e <;> rfl

@[simp, grind =] theorem int?_respell (e : Expr) : int? (respell ρ e) = int? e := by
  cases e <;> rfl

@[simp, grind =] theorem rat?_respell (e : Expr) : rat? (respell ρ e) = rat? e := by
  cases e <;> rfl

@[simp, grind =] theorem isNumber_respell (e : Expr) : isNumber (respell ρ e) = isNumber e := by
  cases e <;> rfl

@[simp, grind =] theorem fault?_respell (e : Expr) : fault? (respell ρ e) = fault? e := by
  cases e <;> rfl

@[simp, grind =] theorem firstFault?_respell (es : List Expr) :
    firstFault? (es.map (respell ρ)) = firstFault? es := by
  simp [firstFault?, List.findSome?_map, Function.comp_def]

theorem filter_respell (es : List Expr) {p : Expr → Bool} (h : ∀ e, p (respell ρ e) = p e) :
    (es.map (respell ρ)).filter p = (es.filter p).map (respell ρ) := by
  simp [List.filter_map, Function.comp_def, h]

/-! ### Expressions without symbols -/

theorem respell_of_symbols (h : ∀ id ∈ symbols e, ρ.spell id = id) : respell ρ e = e := by
  induction e with
  | add a b iha ihb | mul a b iha ihb | pow a b iha ihb | fn2 g a b iha ihb | pair a b iha ihb =>
    obtain ⟨ha, hb⟩ := List.forall_mem_append.mp h
    rw [respell, iha ha, ihb hb]
  | fn g a ih | unknown name a ih => rw [respell, ih h]
  | sym id => rw [respell, h id List.mem_cons_self]
  | _ => rfl

@[simp] theorem respell_refl : respell .refl e = e := respell_of_symbols fun _ _ => rfl

/-- No symbol stands in the expression. -/
abbrev Closed (e : Expr) : Prop := Over (fun _ => False) e

theorem respell_of_closed (h : Closed e) : respell ρ e = e :=
  respell_of_symbols fun id hid => (over_iff.mp h id hid).elim

theorem map_respell_of_closed {o : Option Expr} (h : OverOption (fun _ => False) o) :
    o.map (respell ρ) = o := by
  cases o with
  | none => rfl
  | some e => exact congrArg some (respell_of_closed (overOption_some.mp h))

/-! ### Constants and chains -/

@[simp] theorem respell_num : respell ρ (.num s) = .num s := rfl

@[simp] theorem respell_const : respell ρ (.const c) = .const c := rfl

@[simp] theorem respell_interval : respell ρ .interval = .interval := rfl

@[simp, grind =] theorem respell_zero : respell ρ zero = zero := rfl

@[simp, grind =] theorem respell_one : respell ρ one = one := rfl

@[simp, grind =] theorem respell_minusOne : respell ρ minusOne = minusOne := rfl

@[simp, grind =] theorem respell_half : respell ρ half = half := rfl

@[simp, grind =] theorem respell_pi : respell ρ pi = pi := rfl

@[simp, grind =] theorem respell_ofInt {n : Int} : respell ρ (ofInt n) = ofInt n := rfl

@[simp, grind =] theorem respell_ofRat {q : Rat} : respell ρ (ofRat q) = ofRat q := rfl

@[simp, grind =] theorem respell_pole : respell ρ pole = pole := rfl

@[simp, grind =] theorem respell_undefined : respell ρ undefined = undefined := rfl

theorem respell_eq_iff (h : respell ρ b = b) :
    respell ρ a = b ↔ a = b := respell_injective.eq_iff' h

@[simp] theorem respell_eq_num : respell ρ e = .num s ↔ e = .num s := respell_eq_iff rfl

@[simp] theorem respell_eq_const : respell ρ e = .const c ↔ e = .const c := respell_eq_iff rfl

@[simp] theorem respell_eq_interval : respell ρ e = .interval ↔ e = .interval :=
  respell_eq_iff rfl

@[simp] theorem respell_eq_zero : respell ρ e = zero ↔ e = zero := respell_eq_iff rfl

@[simp] theorem respell_eq_one : respell ρ e = one ↔ e = one := respell_eq_iff rfl

@[simp] theorem respell_eq_minusOne : respell ρ e = minusOne ↔ e = minusOne :=
  respell_eq_iff rfl

@[simp] theorem respell_eq_pi : respell ρ e = pi ↔ e = pi := respell_eq_iff rfl

@[simp, grind =] theorem respell_getD {o : Option Expr} :
    respell ρ (o.getD e) = (o.map (respell ρ)).getD (respell ρ e) := by
  cases o <;> rfl

theorem respell_chain {f : Expr → Expr → Expr} {empty : Expr}
    (hf : ∀ a b, respell ρ (f a b) = f (respell ρ a) (respell ρ b))
    (hempty : respell ρ empty = empty) :
    respell ρ (chain f empty es) = chain f empty (es.map (respell ρ)) := by
  induction es with
  | nil => exact hempty
  | cons e es ih =>
    cases es with
    | nil => rfl
    | cons e' es => exact (hf e _).trans (congrArg _ ih)

@[simp, grind =] theorem respell_addChain :
    respell ρ (addChain es) = addChain (es.map (respell ρ)) :=
  respell_chain (fun _ _ => rfl) rfl

@[simp, grind =] theorem respell_mulChain :
    respell ρ (mulChain es) = mulChain (es.map (respell ρ)) :=
  respell_chain (fun _ _ => rfl) rfl

/-! ### Sequences in order -/

section Alike

variable {α : Type} [LinearOrder α] {u v w u' v' : List α}

theorem append_lt_append_iff : w ++ u < w ++ v ↔ u < v := by
  induction w with
  | nil => rfl
  | cons x w ih => simpa [List.cons_lt_cons_iff] using ih

/-- Two sequences are in the same order as two others. -/
def Alike (u v u' v' : List α) : Prop := (u' < v' ↔ u < v) ∧ (v' < u' ↔ v < u)

theorem Alike.refl : Alike u v u v := ⟨Iff.rfl, Iff.rfl⟩

theorem Alike.cons {x y : α} (h : x = y → Alike u v u' v') :
    Alike (x :: u) (y :: v) (x :: u') (y :: v') := by
  by_cases hxy : x = y
  · obtain ⟨hlt, hgt⟩ := h hxy
    simp [Alike, hxy, hlt, hgt]
  · simp [Alike, List.cons_lt_cons_iff, hxy, Ne.symm hxy]

theorem Alike.append {z : List α} (hlength : w.length = z.length)
    (h : w = z → Alike u v u' v') : Alike (w ++ u) (z ++ v) (w ++ u') (z ++ v') := by
  induction w generalizing z with
  | nil =>
    obtain rfl := List.length_eq_zero_iff.mp hlength.symm
    exact h rfl
  | cons x w ih =>
    cases z with
    | nil => simp at hlength
    | cons y z =>
      refine .cons ?_
      rintro rfl
      exact ih (by simpa using hlength) fun hwz => h (hwz ▸ rfl)

variable [Ring α] [IsStrictOrderedRing α]

/-- The code points of a text and a mark below them all. -/
def codes (t : Text) : List α := t.map (fun c => (c.toNat : α)) ++ [-1]

/-- Sequences that begin with texts are in the order of these, unless the texts are the same. -/
theorem codes_append_lt {s t : Text} (hne : s ≠ t) :
    codes s ++ u < codes t ++ v ↔ Text.le s t = true := by
  have hmark (c : Char) : (-1 : α) < c.toNat := lt_of_lt_of_le (by simp) (Nat.cast_nonneg _)
  induction s generalizing t with
  | nil =>
    cases t with
    | nil => exact absurd rfl hne
    | cons d t => simp [codes, List.cons_lt_cons_iff, hmark, Text.le]
  | cons c s ih =>
    cases t with
    | nil => simp [codes, List.cons_lt_cons_iff, (hmark c).not_gt, (hmark c).ne', Text.le]
    | cons d t =>
      have hcodes (c : Char) (t : Text) (w : List α) :
          codes (c :: t) ++ w = (c.toNat : α) :: (codes t ++ w) := rfl
      rw [hcodes, hcodes, List.cons_lt_cons_iff, Text.le_cons, Nat.cast_lt, Nat.cast_inj,
        Char.toNat_inj]
      refine or_congr_right (and_congr_right ?_)
      rintro rfl
      exact ih fun h => hne (h ▸ rfl)

/-- Texts at the beginnings of sequences, in the order of two others. -/
theorem Alike.texts {s t s' t' : Text} (heq : s' = t' ↔ s = t) (hle : Text.le s' t' = Text.le s t)
    (hge : Text.le t' s' = Text.le t s) (h : s = t → Alike u v u' v') :
    Alike (codes s ++ u) (codes t ++ v) (codes s' ++ u') (codes t' ++ v') := by
  by_cases hst : s = t
  · obtain rfl := heq.mpr hst
    subst hst
    simpa only [Alike, append_lt_append_iff] using h rfl
  · have hst' : s' ≠ t' := fun h => hst (heq.mp h)
    rw [Alike, codes_append_lt hst, codes_append_lt hst', codes_append_lt (Ne.symm hst),
      codes_append_lt (Ne.symm hst'), hle, hge]
    exact ⟨Iff.rfl, Iff.rfl⟩

/-- Respelling texts at the beginnings of sequences keeps their order. -/
theorem Alike.spelled {s t : Text} (h : s = t → Alike u v u' v') :
    Alike (codes s ++ u) (codes t ++ v) (codes (ρ.spell s) ++ u') (codes (ρ.spell t) ++ v') :=
  .texts ρ.spell_inj (ρ.le_spell s t) (ρ.le_spell t s) h

end Alike

/-! ### The order of members -/

theorem keyLe_eq {u v : List Int} : keyLe u v = !decide (v < u) := by
  induction u generalizing v with
  | nil => simp [keyLe]
  | cons x u ih =>
    cases v with
    | nil => simp [keyLe]
    | cons y v =>
      rw [keyLe, ih]
      rcases lt_trichotomy x y with h | rfl | h
      · simp [List.cons_lt_cons_iff, h, h.not_gt, h.ne']
      · simp
      · simp [List.cons_lt_cons_iff, h, h.not_gt, h.ne']

/-- What the key of an expression begins with, before the keys of its operands. -/
def label : Expr → List Int
  | .num s => scalarKey s
  | .const .e => [10]
  | .const .pi => [11]
  | .const .i => [12]
  | .sym id => 13 :: codes id
  | .pow (.const .e) _ => [expPlace]
  | .pow .. => [15]
  | .mul a b => [16, ((factors a).length + (factors b).length : Nat)]
  | .add a b => [17, ((terms a).length + (terms b).length : Nat)]
  | .fn f _ => [Fn.place f]
  | .fn2 f .. => [Fn2.place f]
  | .pair .. => [48]
  | .unknown name _ => 49 :: codes name
  | .interval => [50]
  | .failed _ => [51]

/-- The operands that a key goes on with. -/
def operands : Expr → List Expr
  | .pow (.const .e) b => [b]
  | .add a b | .mul a b | .pow a b | .fn2 _ a b | .pair a b => [a, b]
  | .fn _ a | .unknown _ a => [a]
  | _ => []

theorem key_eq (e : Expr) : key e = label e ++ (operands e).flatMap key := by
  cases e with
  | const c => cases c <;> rfl
  | pow a b =>
    by_cases ha : a = .const .e
    · subst ha
      simp [key, label, operands]
    · have hkey : key (.pow a b) = 15 :: (key a ++ key b) := by grind [key.eq_def]
      have hlabel : label (.pow a b) = [15] := by grind [label.eq_def]
      have hoperands : operands (.pow a b) = [a, b] := by grind [operands.eq_def]
      simp [hkey, hlabel, hoperands]
  | _ => simp [key, label, operands, codes]

@[simp, grind =] theorem operands_respell (e : Expr) :
    operands (respell ρ e) = (operands e).map (respell ρ) := by
  grind [operands.eq_def]

/-- The numbers behind the first one of a label without a text. -/
def width (x : Int) : Nat :=
  if x = 7 ∨ x = 8 then 2 else if x = 9 then 4 else if x = 16 ∨ x = 17 then 1 else 0

/-- The operands behind a label that begins with this number. -/
def arity (x : Int) : Nat :=
  if x ∈ [15, 16, 17, 20, 21, 22, 28, 48] then 2 else if x ≤ 13 ∨ x = 47 ∨ 50 ≤ x then 0 else 1

/-- A label holds the name of a symbol, which is respelled with it, or that of a function, or as
many numbers as its first one tells. -/
inductive Labelled (ρ : Respelling) : List Int → List Int → Nat → Prop
  | symbol (t : Text) : Labelled ρ (13 :: codes t) (13 :: codes (ρ.spell t)) 0
  | unknown (t : Text) : Labelled ρ (49 :: codes t) (49 :: codes t) 1
  | plain {x : Int} {w : List Int} (hx : x ≠ 13) (hx' : x ≠ 49) (hw : w.length = width x) :
      Labelled ρ (x :: w) (x :: w) (arity x)

theorem labelled_scalarKey (s : Scalar) : Labelled ρ (scalarKey s) (scalarKey s) 0 := by
  unfold scalarKey
  split
  · split_ifs <;> exact .plain (by decide) (by decide) rfl
  all_goals exact .plain (by decide) (by decide) rfl

theorem labelled (e : Expr) : Labelled ρ (label e) (label (respell ρ e)) (operands e).length := by
  cases e with
  | num s => exact labelled_scalarKey s
  | const c => cases c <;> exact .plain (by decide) (by decide) rfl
  | sym id => exact .symbol id
  | unknown name a => exact .unknown name
  | fn f a => cases f <;> exact .plain (by decide) (by decide) rfl
  | fn2 f a b => cases f <;> exact .plain (by decide) (by decide) rfl
  | pow a b =>
    by_cases ha : a = .const .e
    · subst ha
      exact .plain (by decide) (by decide) rfl
    · have hlabel : label (.pow a b) = [15] := by grind [label.eq_def]
      have hlabel' : label (respell ρ (.pow a b)) = [15] := by grind [label.eq_def]
      have hoperands : operands (.pow a b) = [a, b] := by grind [operands.eq_def]
      rw [hlabel, hlabel', hoperands]
      exact .plain (by decide) (by decide) rfl
  | add a b =>
    simp only [respell, label, terms_respell, List.length_map]
    exact .plain (by decide) (by decide) rfl
  | mul a b =>
    simp only [respell, label, factors_respell, List.length_map]
    exact .plain (by decide) (by decide) rfl
  | _ => exact .plain (by decide) (by decide) rfl

/-- Labels that differ decide the order, and else there are as many operands behind both. -/
theorem alike_label {l m l' m' u v u' v' : List Int} {n k : Nat} (hl : Labelled ρ l l' n)
    (hm : Labelled ρ m m' k) (h : n = k → Alike u v u' v') :
    Alike (l ++ u) (m ++ v) (l' ++ u') (m' ++ v') := by
  cases hl with
  | symbol s =>
    cases hm with
    | symbol t => exact .cons fun _ => .spelled fun _ => h rfl
    | unknown t => exact .cons fun h => absurd h (by decide)
    | plain hy => exact .cons fun h => absurd h.symm hy
  | unknown s =>
    cases hm with
    | symbol t => exact .cons fun h => absurd h (by decide)
    | unknown t => exact .cons fun _ => .texts Iff.rfl rfl rfl fun _ => h rfl
    | plain _ hy => exact .cons fun h => absurd h.symm hy
  | plain hx hx' hw =>
    cases hm with
    | symbol t => exact .cons fun h => absurd h hx
    | unknown t => exact .cons fun h => absurd h hx'
    | plain hy hy' hz =>
      refine .cons ?_
      rintro rfl
      exact .append (hw.trans hz.symm) fun _ => h rfl

theorem size_lt_of_mem_operands (h : a ∈ operands e) : size a < size e := by
  grind [operands.eq_def, size.eq_def]

/-- The keys of two expressions and what follows them are in the same order respelled. -/
theorem alike_key (e f : Expr) {u v u' v' : List Int} (h : Alike u v u' v') :
    Alike (key e ++ u) (key f ++ v) (key (respell ρ e) ++ u') (key (respell ρ f) ++ v') := by
  have hmembers : ∀ es fs : List Expr, (∀ a ∈ es, a ∈ operands e) → es.length = fs.length →
      Alike (es.flatMap key ++ u) (fs.flatMap key ++ v)
        ((es.map (respell ρ)).flatMap key ++ u') ((fs.map (respell ρ)).flatMap key ++ v') := by
    intro es
    induction es with
    | nil =>
      intro fs _ hlength
      obtain rfl := List.length_eq_zero_iff.mp hlength.symm
      exact h
    | cons a es ih =>
      intro fs hes hlength
      cases fs with
      | nil => simp at hlength
      | cons b fs =>
        have ha := size_lt_of_mem_operands (hes a List.mem_cons_self)
        have hrest := ih fs (fun x hx => hes x (List.mem_cons_of_mem a hx)) (by simpa using hlength)
        simpa using alike_key a b hrest
  rw [key_eq e, key_eq f, key_eq (respell ρ e), key_eq (respell ρ f), operands_respell,
    operands_respell]
  simp only [List.append_assoc]
  exact alike_label (labelled e) (labelled f) (hmembers _ _ fun _ => id)
termination_by size e

theorem inOrder_respell (es : List Expr) :
    inOrder (es.map (respell ρ)) = (inOrder es).map (respell ρ) := by
  have hle (a b : Expr) :
      keyLe (key (respell ρ a)) (key (respell ρ b)) = keyLe (key a) (key b) := by
    have h := (alike_key (ρ := ρ) b a Alike.refl (u := []) (v := [])).1
    simp only [List.append_nil] at h
    rw [keyLe_eq, keyLe_eq, decide_eq_decide.mpr h]
  have hmap := List.map_mergeSort (f := fun p : List Int × Expr =>
    (key (respell ρ p.2), respell ρ p.2))
    (r := fun a b => keyLe a.1 b.1) (s := fun a b => keyLe a.1 b.1)
    (l := es.map fun e => (key e, e)) (by simp [hle])
  simp only [List.map_map, Function.comp_def] at hmap
  simp only [inOrder, List.map_map, Function.comp_def, ← hmap]

end Expr

end Formulary
