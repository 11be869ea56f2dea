import Formulary.Calc.Function
import Formulary.Proofs.Calc.Over.Remainder

/-! # What stands in a value put in

What is put in for a symbol brings its own symbols and takes the place of that
symbol. Where the symbol does not stand, nothing changes.
-/

namespace Formulary.Expr

variable {S T : Text → Prop} {a b e : Expr} {es : List Expr} {id : Text} {s : Scalar}
  {σ : Text → Option Expr}

/-! ### Functions -/

@[simp] theorem over_apply {f : Fn} (h : Over S a) : Over S (apply f a) := by
  unfold apply
  split <;> simp [h]

@[simp] theorem over_apply2 {f : Fn2} (ha : Over S a) (hb : Over S b) :
    Over S (apply2 f a b) := by
  unfold apply2
  split
  · exact over_atan2 ha hb
  · exact over_mod ha hb
  · exact over_extreme (by simp [ha, hb])
  · exact over_extreme (by simp [ha, hb])

@[simp] theorem over_timesInto {n : Int} : Over S (timesInto n s) := by
  unfold timesInto
  dsimp only
  split
  · split <;> simp
  · simp
  · simp

@[simp] theorem over_floorQuotient (ha : Over S a) (hb : Over S b) :
    Over S (floorQuotient a b) := by
  unfold floorQuotient
  split
  · split <;> simp
  · simp [ha, hb]

theorem over_call? {f : Builtin} (h : ∀ e ∈ es, Over S e) :
    OverOption S (f.call? es) := by
  unfold Builtin.call?
  split <;> simp_all

/-! ### Substitution -/

@[simp] theorem over_joinPair (ha : Over S a) (hb : Over S b) : Over S (joinPair a b) := by
  have hboth : ∀ e ∈ [a, b], Over S e := by simp [ha, hb]
  unfold joinPair
  split
  · exact over_failed
  · exact over_pair.mpr ⟨ha, hb⟩

@[simp] theorem over_applyUnknown {name : Text} (h : Over S a) : Over S (applyUnknown name a) := by
  unfold applyUnknown
  split
  · exact h
  · exact over_unknown.mpr h

theorem over_single (h : ∀ e ∈ es, Over S e) : Over S (single es) := by
  cases es with
  | nil => exact over_zero
  | cons e es => exact h e List.mem_cons_self

/-- What is put in for symbols of one class has symbols of another. -/
def Carries (σ : Text → Option Expr) (S T : Text → Prop) : Prop :=
  ∀ id, S id → Over T ((σ id).getD (.sym id))

theorem over_of_not_affected (hσ : Carries σ S T) (h : Over S e) (hnot : isAffected σ e = false) :
    Over T e := by
  refine h.mono fun id hid hS => ?_
  have hnone : σ id = none := by
    simpa using List.any_eq_false.mp hnot id hid
  simpa [hnone] using hσ id hS

theorem over_replaceMembers {place : Place} (hσ : Carries σ S T) (h : Over S e) :
    ∀ m ∈ replaceMembers σ place e, Over T m := by
  fun_induction replaceMembers σ place e with
  | case1 place e hnot =>
    exact List.forall_mem_singleton.mpr (over_of_not_affected hσ h (by simpa using hnot))
  | case2 place id haffected => exact List.forall_mem_singleton.mpr (hσ id (over_sym.mp h))
  | case3 a b members haffected iha ihb =>
    obtain ⟨ha, hb⟩ := over_add.mp h
    exact over_append (iha ha) (ihb hb)
  | case4 place a b haffected members hplace iha ihb =>
    obtain ⟨ha, hb⟩ := over_add.mp h
    exact List.forall_mem_singleton.mpr (over_sum (over_append (iha ha) (ihb hb)))
  | case5 a b members haffected iha ihb =>
    obtain ⟨ha, hb⟩ := over_mul.mp h
    exact over_append (iha ha) (ihb hb)
  | case6 place a b haffected members hplace iha ihb =>
    obtain ⟨ha, hb⟩ := over_mul.mp h
    exact List.forall_mem_singleton.mpr (over_product (over_append (iha ha) (ihb hb)))
  | case7 place a b haffected iha ihb =>
    obtain ⟨ha, hb⟩ := over_pow.mp h
    exact List.forall_mem_singleton.mpr (over_power (over_single (iha ha)) (over_single (ihb hb)))
  | case8 place f a haffected iha =>
    exact List.forall_mem_singleton.mpr (over_apply (over_single (iha (over_fn.mp h))))
  | case9 place f a b haffected iha ihb =>
    obtain ⟨ha, hb⟩ := over_fn2.mp h
    exact List.forall_mem_singleton.mpr
      (over_apply2 (over_single (iha ha)) (over_single (ihb hb)))
  | case10 place a b haffected iha ihb =>
    obtain ⟨ha, hb⟩ := over_pair.mp h
    exact List.forall_mem_singleton.mpr
      (over_joinPair (over_single (iha ha)) (over_single (ihb hb)))
  | case11 place name a haffected iha =>
    exact List.forall_mem_singleton.mpr (over_applyUnknown (over_single (iha (over_unknown.mp h))))
  | case12 place e haffected =>
    cases e with
    | failed f => exact List.forall_mem_singleton.mpr over_failed
    | _ => simp_all

theorem over_replace (hσ : Carries σ S T) (h : Over S e) : Over T (replace σ e) :=
  over_single (over_replaceMembers hσ h)

/-- A number that is put in brings no symbol. -/
theorem symbols_put {k : Text} (h : k ∈ (put id s e).symbols) : k ∈ e.symbols ∧ k ≠ id := by
  refine over_iff.mp (over_replace (S := (· ∈ e.symbols)) (T := fun k => k ∈ e.symbols ∧ k ≠ id)
    (fun k hk => ?_) (over_iff.mpr fun _ hk => hk)) k h
  split
  · simp
  · exact over_sym.mpr ⟨hk, ‹_›⟩

/-- Where a symbol does not stand, no number can be put in for it. -/
theorem put_of_not_mem (h : id ∉ e.symbols) : put id s e = e := by
  have hnot : isAffected (fun k => if k = id then some (.num s) else none) e = false := by
    refine List.any_eq_false.mpr fun k hk => ?_
    have hne : k ≠ id := fun he => h (he ▸ hk)
    simp [hne]
  unfold put replace replaceMembers
  simp [hnot, single]

end Formulary.Expr
