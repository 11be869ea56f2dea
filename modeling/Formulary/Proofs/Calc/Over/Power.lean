import Formulary.Calc.Power
import Formulary.Proofs.Calc.Over.Product

/-! # What stands in a power

Whatever rule a power goes by, the symbols of the result are those of its base and
its exponent.
-/

namespace Formulary.Expr

variable {S : Text → Prop} {a b e x : Expr} {es : List Expr} {s t : Scalar}

/-! ### Numbers -/

@[simp] theorem over_ofComplex {p : Nat} {z : Complex} : Over S (ofComplex p z) := by
  unfold ofComplex
  dsimp only
  split
  · simp
  · split <;> simp

@[simp] theorem over_roundedPower {p : Nat} : Over S (roundedPower p s t) := by
  unfold roundedPower
  dsimp only
  split
  · simp
  · split
    · split
      · exact over_ofPowers over_rootPowers
      · simp
    · simp

@[simp] theorem over_infinitePower {negative : Bool} : Over S (infinitePower s negative) := by
  unfold infinitePower
  split
  · split
    · split <;> simp
    · simp
  · split
    · simp
    · split <;> simp
  · simp

@[simp] theorem over_scalarPower : Over S (scalarPower s t) := by
  unfold scalarPower
  split
  any_goals simp
  · split
    · simp
    · split <;> simp
  · split
    · simp
    · split
      · simp
      · split <;> simp
  · exact over_ofPowers over_fractionPower
  · split
    · simp
    · split
      · split
        · simp
        · split
          · simp
          · split <;> simp
      · split <;> split <;> simp

/-! ### Powers of expressions -/

theorem over_edgePower? (he : Over S e) : OverOption S (edgePower? b e) := by
  unfold edgePower?
  dsimp only
  split
  · split
    · simp
    · split
      · simp
      · split
        · split <;> simp
        · exact overOption_some.mpr (over_ofPowers (over_zeroPower he))
  · split
    · simp
    · split
      · simp
      · split <;> simp
  · cases sign? e with
    | none => simp
    | some s =>
      rw [Option.map_some, overOption_some]
      split
      · simp
      · split <;> simp
  · cases sign? e with
    | none => simp
    | some s =>
      rw [Option.map_some, overOption_some]
      split <;> simp
  · simp

@[simp] theorem over_realSize (h : Over S a) : Over S (realSize a) := by
  unfold realSize
  dsimp only
  split
  · exact h
  · split
    · simp [h]
    · rw [over_fn]
      split <;> simp [h]

theorem over_nestedPower? (hb : Over S b) (he : Over S e) (hx : Over S x) :
    OverOption S (nestedPower? b e x) := by
  have hprod : Over S (product [e, x]) := over_productPair he hx
  have hbase : Over S (if (nature e).isEven && (nature b).isReal then realSize b else b) :=
    over_ite (over_realSize hb) hb
  unfold nestedPower?
  dsimp only
  generalize (if (nature e).isEven && (nature b).isReal then realSize b else b) = base at hbase ⊢
  split
  · exact overOption_some.mpr (over_ofPowers (by simp [hb, hprod]))
  · split
    · simp
    · split
      · exact overOption_some.mpr (over_ofPowers (by simp [hb, hx]))
      · split
        · exact overOption_some.mpr (over_ofPowers (by simp [hb, hx]))
        · split
          · exact overOption_some.mpr (over_ofPowers (by simp [hbase, hprod]))
          · simp

theorem over_releasePowers (h : Over S b) :
    (∀ f ∈ (releasePowers b).1, Over S f) ∧ ∀ f ∈ (releasePowers b).2, Over S f := by
  have hfactors := over_factors.mpr h
  unfold releasePowers
  simp only [List.partition_eq_filter_filter]
  have habove : ∀ f ∈ (factors b).filter fun f => (nature f).notNeg, Over S f :=
    fun f hf => hfactors f (List.mem_filter.mp hf).1
  have hothers : ∀ f ∈ (factors b).filter (Bool.not ∘ fun f => (nature f).notNeg), Over S f :=
    fun f hf => hfactors f (List.mem_filter.mp hf).1
  generalize (factors b).filter (fun f => (nature f).notNeg) = above at habove
  generalize (factors b).filter (Bool.not ∘ fun f => (nature f).notNeg) = others at hothers
  have hbelow : ∀ f ∈ others.filter fun f => (nature f).isNeg, Over S f :=
    fun f hf => hothers f (List.mem_filter.mp hf).1
  have hrest : ∀ f ∈ others.filter (Bool.not ∘ fun f => (nature f).isNeg), Over S f :=
    fun f hf => hothers f (List.mem_filter.mp hf).1
  generalize others.filter (fun f => (nature f).isNeg) = below at hbelow
  generalize others.filter (Bool.not ∘ fun f => (nature f).isNeg) = rest at hrest
  split
  · exact ⟨habove, hrest⟩
  · split <;> simp_all [or_imp]
  · obtain ⟨hn, hmore⟩ := List.forall_mem_cons.mp hbelow
    split <;> split <;> split <;> simp_all [or_imp]

theorem over_memberPower (hb : Over S b) (he : Over S e) : Over S (memberPower b e) := by
  unfold memberPower
  split
  · simp
  · rename_i b' e'
    obtain ⟨hb', he'⟩ := over_pow.mp hb
    exact (over_nestedPower? hb' he' he).getD (over_pow.mpr ⟨hb, he⟩)
  · exact over_ofPowers (by simp [hb, he])

theorem over_generalPower (hb : Over S b) (he : Over S e) : Over S (generalPower b e) := by
  unfold generalPower
  split
  · exact over_ofPowers (over_raise hb)
  · split
    · simp
    · exact over_ofPowers (by simp [over_product, he])
  · rename_i b' e' _
    obtain ⟨hb', he'⟩ := over_pow.mp hb
    exact (over_nestedPower? hb' he' he).getD (over_pow.mpr ⟨hb, he⟩)
  · obtain ⟨hreleased, hrest⟩ := over_releasePowers hb
    split
    · dsimp only
      split
      · exact over_pow.mpr ⟨hb, he⟩
      · refine over_product (List.forall_mem_cons.mpr ⟨?_, ?_⟩)
        · split
          · simp
          · exact over_memberPower (by simp_all) he
          · exact over_pow.mpr ⟨by simpa using hrest, he⟩
        · simp only [List.mem_map, forall_exists_index, and_imp, forall_apply_eq_imp_iff₂]
          exact fun f hf => over_memberPower (hreleased f hf) he
    · exact over_pow.mpr ⟨hb, he⟩
  · exact over_ofPowers (by simp_all)
  · exact over_ofPowers (by simp_all)
  · exact over_pow.mpr ⟨hb, he⟩

theorem over_exponentOfE? (hb : Over S b) (hx : Over S x) : OverOption S (exponentOfE? b x) := by
  have hterms := over_terms.mpr hx
  unfold exponentOfE?
  dsimp only
  split
  · refine overOption_some.mpr (over_sum ?_)
    simp only [List.mem_map, forall_exists_index, and_imp, forall_apply_eq_imp_iff₂]
    exact fun t ht => over_productPair (hterms t ht) (over_fn.mpr hb)
  · simp

@[simp] theorem over_exp (h : Over S x) : Over S (exp x) := by
  unfold exp
  split
  · exact h
  any_goals simp
  exact over_ofPowers (over_expPowers h)

@[simp] theorem over_power (hb : Over S b) (he : Over S e) : Over S (power b e) := by
  have hboth : ∀ x ∈ [b, e], Over S x := by simp [hb, he]
  unfold power
  split
  · exact over_failed
  · split
    · simp
    · split
      · exact hb
      · split
        any_goals simp
        · exact over_exp he
        · split
          · simp
          · simp [hb]
        · split
          · exact over_exp ((over_exponentOfE? hb he).of_eq_some ‹_›)
          · exact (over_edgePower? he).getD (over_generalPower hb he)

@[simp] theorem over_quotient (ha : Over S a) (hb : Over S b) : Over S (quotient a b) := by
  unfold quotient
  split
  · simp
  · exact over_productPair ha (over_power hb over_minusOne)

@[simp] theorem over_sqrt (h : Over S e) : Over S (sqrt e) := over_power h over_half

@[simp] theorem over_imaginary (h : Over S e) : Over S (imaginary e) :=
  over_productPair over_const h

end Formulary.Expr
