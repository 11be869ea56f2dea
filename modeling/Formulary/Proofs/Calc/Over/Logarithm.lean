import Formulary.Calc.Logarithm
import Formulary.Proofs.Calc.Over.Angle

/-! # What stands in a logarithm

What is taken out of the argument, the imaginary unit or whole periods, leaves no
symbols that were not there.
-/

namespace Formulary.Expr

variable {S : Text → Prop} {a b e t x period : Expr} {es ts : List Expr} {q : Rat}

@[simp] theorem over_infinity {negative : Bool} : Over S (infinity negative) := over_num

@[simp] theorem over_roundedFn {f : Fn} {p : Nat} {x : Binary} : Over S (roundedFn f p x) := by
  unfold roundedFn
  split <;> simp

@[simp] theorem over_halfPi : Over S halfPi := over_piTimes

/-! ### The imaginary unit -/

theorem over_mapM {f : Expr → Option Expr} (h : ∀ e ∈ es, OverOption S (f e))
    (hts : es.mapM f = some ts) : ∀ t ∈ ts, Over S t := by
  induction es generalizing ts with
  | nil => simp_all
  | cons e es ih =>
    obtain ⟨he, hes⟩ := List.forall_mem_cons.mp h
    rw [List.mapM_cons] at hts
    obtain ⟨t, ht, hts⟩ := Option.bind_eq_some_iff.mp hts
    obtain ⟨us, hus, hts⟩ := Option.bind_eq_some_iff.mp hts
    rw [← Option.some.inj hts]
    exact List.forall_mem_cons.mpr ⟨he.of_eq_some ht, ih hes hus⟩

theorem over_imaginaryTerms? (h : Over S a) (hts : imaginaryTerms? a = some ts) :
    ∀ t ∈ ts, Over S t := by
  refine over_mapM (fun t ht => ?_) hts
  have hfactors := over_factors.mpr (over_terms.mpr h t ht)
  intro u hu
  obtain ⟨fs, hfs, rfl⟩ := Option.map_eq_some_iff.mp hu
  exact over_product (over_without? hfactors hfs)

theorem over_imaginaryFactor? (h : Over S a) : OverOption S (imaginaryFactor? a) := by
  unfold imaginaryFactor?
  intro x hx
  obtain ⟨ts, hts, hx⟩ := Option.bind_eq_some_iff.mp hx
  dsimp only at hx
  split at hx
  · simp at hx
  · rw [← Option.some.inj hx]
    exact over_sum (over_imaginaryTerms? h hts)

theorem over_withinPeriod? (hperiod : Over S period) (h : Over S a) :
    OverOption S (withinPeriod? period a) := by
  unfold withinPeriod?
  intro x hx
  obtain ⟨y, -, hx⟩ := Option.bind_eq_some_iff.mp hx
  obtain ⟨p, -, hx⟩ := Option.bind_eq_some_iff.mp hx
  rw [← Option.some.inj hx]
  exact over_difference h (over_productPair over_ofInt hperiod)

theorem over_logOfExp? (h : Over S t) : OverOption S (logOfExp? t) := by
  have hterms := over_terms.mpr h
  unfold logOfExp?
  simp only [List.partition_eq_filter_filter]
  have hrotation : Over S (sum ((terms t).filter fun u => mentions .i u)) :=
    over_sum fun u hu => hterms u (List.mem_filter.mp hu).1
  refine (over_imaginaryFactor? hrotation).bind fun angle hangle => ?_
  refine (over_withinPeriod? over_piTimes hangle).bind fun turned hturned => ?_
  have hreduced : Over S (if isAbove turned pi then difference turned (piTimes 2) else turned) :=
    over_ite (over_difference hturned over_piTimes) hturned
  split
  · refine overOption_some.mpr (over_sum (List.forall_mem_append.mpr ⟨?_, by simp [hreduced]⟩))
    exact fun u hu => hterms u (List.mem_filter.mp hu).1
  · simp

/-! ### Logarithms -/

@[simp] theorem over_logFraction : Over S (logFraction q) := by
  unfold logFraction
  split
  · simp
  · split <;> simp

@[simp] theorem over_log (h : Over S a) : Over S (log a) := by
  unfold log
  split
  any_goals simp [h]
  · split
    · simp
    · split <;> simp
  · split
    · simp
    · split <;> simp
  · have ht := (over_pow.mp h).2
    split
    · exact ht
    · split
      · exact (over_logOfExp? ht).getD (over_fn.mpr h)
      · exact over_fn.mpr h
  · split
    · split <;> simp
    · split <;> simp [h]

@[simp] theorem over_logBase (ha : Over S a) (hb : Over S b) : Over S (logBase a b) := by
  have hplain : Over S (quotient (log a) (log b)) := by simp [ha, hb]
  unfold logBase
  split
  · split <;> simp
  · split
    · exact over_log ha
    · dsimp only
      split
      · split
        · split
          · exact hplain
          · refine over_sumPair over_ofInt ?_
            exact over_quotient (over_log (over_quotient ha (over_power hb over_ofInt)))
              (over_log hb)
        · exact hplain
      · exact hplain

end Formulary.Expr
