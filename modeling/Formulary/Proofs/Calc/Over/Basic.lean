import Formulary.Calc.Expr

/-! # What stands in an expression

No simplification brings in a symbol. `Over S e` says that the symbols of `e` belong to
the class `S`; each constructor keeps it, and the modules after this one show that each
operation on expressions does.
-/

namespace Formulary

namespace Expr

variable {S : Text → Prop} {a b e t : Expr} {es fs : List Expr} {s c : Scalar}

/-- Every symbol of the expression belongs to the class. -/
def Over (S : Text → Prop) : Expr → Prop
  | .num _ | .const _ | .interval | .failed _ => True
  | .sym id => S id
  | .add a b | .mul a b | .pow a b | .pair a b | .fn2 _ a b => Over S a ∧ Over S b
  | .fn _ a | .unknown _ a => Over S a

/-! ### Constructors -/

@[simp] theorem over_num : Over S (.num s) := trivial

@[simp] theorem over_const {c : Const} : Over S (.const c) := trivial

@[simp] theorem over_interval : Over S .interval := trivial

@[simp] theorem over_failed {f : Fault} : Over S (.failed f) := trivial

@[simp] theorem over_sym {id : Text} : Over S (.sym id) ↔ S id := Iff.rfl

@[simp] theorem over_add : Over S (.add a b) ↔ Over S a ∧ Over S b := Iff.rfl

@[simp] theorem over_mul : Over S (.mul a b) ↔ Over S a ∧ Over S b := Iff.rfl

@[simp] theorem over_pow : Over S (.pow a b) ↔ Over S a ∧ Over S b := Iff.rfl

@[simp] theorem over_fn {f : Fn} : Over S (.fn f a) ↔ Over S a := Iff.rfl

@[simp] theorem over_fn2 {f : Fn2} :
    Over S (.fn2 f a b) ↔ Over S a ∧ Over S b := Iff.rfl

@[simp] theorem over_pair : Over S (.pair a b) ↔ Over S a ∧ Over S b := Iff.rfl

@[simp] theorem over_unknown {name : Text} : Over S (.unknown name a) ↔ Over S a := Iff.rfl

theorem over_iff : Over S e ↔ ∀ id ∈ e.symbols, S id := by
  induction e with
  | sym id => simp [Over, symbols]
  | add a b iha ihb | mul a b iha ihb | pow a b iha ihb | pair a b iha ihb | fn2 g a b iha ihb =>
    rw [symbols, List.forall_mem_append, ← iha, ← ihb, Over]
  | fn f a ih | unknown name a ih => rw [symbols, ← ih, Over]
  | _ => simp [Over, symbols]

theorem Over.mono {T : Text → Prop} (h : Over S e) (hS : ∀ id ∈ e.symbols, S id → T id) :
    Over T e :=
  over_iff.mpr fun id hid => hS id hid (over_iff.mp h id hid)

-- From here on the lemmas above tell what an expression holds.
attribute [irreducible] Over

theorem over_ite {p : Prop} [Decidable p] (ha : Over S a) (hb : Over S b) :
    Over S (if p then a else b) := by
  split
  · exact ha
  · exact hb

/-! ### Expressions that there may not be -/

/-- If there is an expression, it holds only what is allowed. -/
def OverOption (S : Text → Prop) (o : Option Expr) : Prop := ∀ e ∈ o, Over S e

@[simp] theorem overOption_none : OverOption S none := by simp [OverOption]

@[simp] theorem overOption_some : OverOption S (some e) ↔ Over S e := by simp [OverOption]

theorem OverOption.of_eq_some {o : Option Expr} (h : OverOption S o) (he : o = some e) :
    Over S e :=
  h e he

theorem OverOption.map {o : Option Expr} {f : Expr → Expr} (h : OverOption S o)
    (hf : ∀ e, Over S e → Over S (f e)) : OverOption S (o.map f) := by
  cases o with
  | none => simp
  | some e => exact overOption_some.mpr (hf e (overOption_some.mp h))

theorem OverOption.bind {o : Option Expr} {f : Expr → Option Expr} (h : OverOption S o)
    (hf : ∀ e, Over S e → OverOption S (f e)) : OverOption S (o.bind f) := by
  cases o with
  | none => simp
  | some e => exact hf e (overOption_some.mp h)

theorem OverOption.or {o u : Option Expr} (ho : OverOption S o) (hu : OverOption S u) :
    OverOption S (o.or u) := by
  cases o with
  | none => exact hu
  | some e => exact ho

theorem OverOption.getD {o : Option Expr} (h : OverOption S o) (ha : Over S a) :
    Over S (o.getD a) := by
  cases o with
  | none => exact ha
  | some e => exact overOption_some.mp h

/-! ### Lists -/

theorem over_filter (h : ∀ e ∈ es, Over S e) (keep : Expr → Bool) :
    ∀ e ∈ es.filter keep, Over S e :=
  fun e he => h e (List.mem_filter.mp he).1

theorem over_map {α : Type} {l : List α} {f : α → Expr} (h : ∀ x ∈ l, Over S (f x)) :
    ∀ e ∈ l.map f, Over S e :=
  List.forall_mem_map.mpr h

theorem over_filterMap {α : Type} {l : List α} {f : α → Option Expr}
    (h : ∀ x ∈ l, OverOption S (f x)) : ∀ e ∈ l.filterMap f, Over S e := by
  intro e he
  obtain ⟨x, hx, he⟩ := List.mem_filterMap.mp he
  exact (h x hx).of_eq_some he

theorem over_flatMap {α : Type} {l : List α} {f : α → List Expr}
    (h : ∀ x ∈ l, ∀ e ∈ f x, Over S e) : ∀ e ∈ l.flatMap f, Over S e := by
  intro e he
  obtain ⟨x, hx, he⟩ := List.mem_flatMap.mp he
  exact h x hx e he

theorem over_append {fs : List Expr} (hes : ∀ e ∈ es, Over S e) (hfs : ∀ e ∈ fs, Over S e) :
    ∀ e ∈ es ++ fs, Over S e :=
  List.forall_mem_append.mpr ⟨hes, hfs⟩

/-! ### Numbers -/

@[simp] theorem over_zero : Over S zero := over_num

@[simp] theorem over_one : Over S one := over_num

@[simp] theorem over_minusOne : Over S minusOne := over_num

@[simp] theorem over_half : Over S half := over_num

@[simp] theorem over_pi : Over S pi := over_const

@[simp] theorem over_ofInt {n : Int} : Over S (ofInt n) := over_num

@[simp] theorem over_ofRat {q : Rat} : Over S (ofRat q) := over_num

@[simp] theorem over_pole : Over S pole := over_num

@[simp] theorem over_undefined : Over S undefined := over_num

/-! ### Chains -/

@[simp] theorem over_terms : (∀ t ∈ terms e, Over S t) ↔ Over S e := by
  induction e with
  | add a b iha ihb => rw [terms, List.forall_mem_append, iha, ihb, over_add]
  | _ => simp [terms]

@[simp] theorem over_factors : (∀ f ∈ factors e, Over S f) ↔ Over S e := by
  induction e with
  | mul a b iha ihb => rw [factors, List.forall_mem_append, iha, ihb, over_mul]
  | _ => simp [factors]

theorem over_chain {join : Expr → Expr → Expr} {empty : Expr} (hempty : Over S empty)
    (hjoin : ∀ a b, Over S (join a b) ↔ Over S a ∧ Over S b) :
    Over S (chain join empty es) ↔ ∀ e ∈ es, Over S e := by
  induction es with
  | nil => simp [chain, hempty]
  | cons e es ih =>
    cases es with
    | nil => simp [chain]
    | cons e' es =>
      have hcons : chain join empty (e :: e' :: es) = join e (chain join empty (e' :: es)) := rfl
      rw [hcons, hjoin, ih, ← List.forall_mem_cons]

@[simp] theorem over_addChain : Over S (addChain es) ↔ ∀ e ∈ es, Over S e :=
  over_chain over_zero fun _ _ => over_add

@[simp] theorem over_mulChain : Over S (mulChain es) ↔ ∀ e ∈ es, Over S e :=
  over_chain over_one fun _ _ => over_mul

@[simp] theorem mem_inOrder : e ∈ inOrder es ↔ e ∈ es := by
  have hperm : (inOrder es).Perm es := by
    have h := (List.mergeSort_perm (es.map fun e => (key e, e)) fun a b => keyLe a.1 b.1).map
      Prod.snd
    simpa [inOrder, List.map_map, Function.comp_def] using h
  exact hperm.mem_iff

end Expr

end Formulary
