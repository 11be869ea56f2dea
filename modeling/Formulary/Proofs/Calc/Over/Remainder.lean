import Formulary.Calc.CommonFactor
import Formulary.Calc.Remainder
import Formulary.Calc.Whole
import Formulary.Proofs.Calc.Over.Size

/-! # What stands in a common factor

The generators of two polynomials are parts of the two expressions, and a common
factor is made of generators.
-/

namespace Formulary.Expr

section Polynomials

variable {S : Text → Prop} {a b e t : Expr} {es : List Expr} {m k : Monomial} {f g : Expansion}

/-! ### Expressions as polynomials -/

/-- The generators of a monomial hold only what is allowed. -/
def OverMonomial (S : Text → Prop) (m : Monomial) : Prop := ∀ p ∈ m, Over S p.1

def OverExpansion (S : Text → Prop) (f : Expansion) : Prop := ∀ t ∈ f, OverMonomial S t.1

theorem over_timesGenerator {p : Expr × Nat} (hm : OverMonomial S m) (hp : Over S p.1) :
    OverMonomial S (timesGenerator m p) := by
  induction m with
  | nil => exact List.forall_mem_singleton.mpr hp
  | cons q m ih =>
    obtain ⟨hq, hm⟩ := List.forall_mem_cons.mp hm
    unfold timesGenerator
    split
    · exact List.forall_mem_cons.mpr ⟨hq, hm⟩
    · exact List.forall_mem_cons.mpr ⟨hq, ih hm⟩

theorem over_timesMonomial (hm : OverMonomial S m) (hk : OverMonomial S k) :
    OverMonomial S (timesMonomial m k) :=
  List.foldlRecOn (motive := OverMonomial S) k _ hm fun _ hacc p hp =>
    over_timesGenerator hacc (hk p hp)

theorem over_multiply (hf : OverExpansion S f) (hg : OverExpansion S g) :
    OverExpansion S (multiply f g) := by
  intro t ht
  obtain ⟨u, hu, ht⟩ := List.mem_flatMap.mp ht
  obtain ⟨v, hv, rfl⟩ := List.mem_map.mp ht
  exact over_timesMonomial (hf u hu) (hg v hv)

theorem over_raiseExpansion {n : Nat} (hf : OverExpansion S f) :
    OverExpansion S (raiseExpansion f n) := by
  induction n with
  | zero => simp [raiseExpansion, OverExpansion, OverMonomial]
  | succ n ih => exact over_multiply hf ih

theorem over_generator (h : Over S e) : Over S (generator e).1 := by
  unfold generator
  split
  · have hb := (over_pow.mp h).1
    exact over_ite hb (over_pow.mpr ⟨hb, over_ofRat⟩)
  · obtain ⟨hb, hx⟩ := over_pow.mp h
    split
    · exact over_pow.mpr ⟨hb, over_withCoefficient.mpr (hx.of_splitTerm ‹_›)⟩
    · exact h
  · exact h

theorem over_ofGenerator {p : Expr × Int} (h : Over S p.1) : OverExpansion S (ofGenerator p) := by
  unfold ofGenerator
  split <;> simp [OverExpansion, OverMonomial, h]

theorem over_expand? (h : Over S e) : ∀ f ∈ expand? e, OverExpansion S f := by
  fun_induction expand? e with
  | case6 a b iha ihb =>
    obtain ⟨ha, hb⟩ := over_add.mp h
    intro f hf
    obtain ⟨u, hu, hf⟩ := Option.bind_eq_some_iff.mp hf
    obtain ⟨v, hv, hf⟩ := Option.bind_eq_some_iff.mp hf
    rw [← Option.some.inj hf]
    exact List.forall_mem_append.mpr ⟨iha ha u hu, ihb hb v hv⟩
  | case7 a b iha ihb =>
    obtain ⟨ha, hb⟩ := over_mul.mp h
    intro f hf
    obtain ⟨u, hu, hf⟩ := Option.bind_eq_some_iff.mp hf
    obtain ⟨v, hv, hf⟩ := Option.bind_eq_some_iff.mp hf
    rw [← Option.some.inj hf]
    exact over_multiply (iha ha u hu) (ihb hb v hv)
  | case8 b x n hn hpow ih =>
    intro f hf
    obtain ⟨u, hu, rfl⟩ := Option.map_eq_some_iff.mp hf
    exact over_raiseExpansion (ih (over_pow.mp h).1 u hu)
  | case9 b x n hn hpow => simpa using over_ofGenerator (over_generator h)
  | case10 b x hx => simpa using over_ofGenerator (over_generator h)
  | _ => simp_all [OverExpansion, OverMonomial]

theorem over_ofPolyTerm {c : Scalar} {exps : List Nat} (h : ∀ e ∈ es, Over S e) :
    Over S (ofPolyTerm es c exps) := by
  refine over_product (List.forall_mem_cons.mpr ⟨over_num, over_map fun p hp => ?_⟩)
  exact over_power (h p.1 (List.of_mem_zip hp).1) over_ofInt

theorem over_ofPoly {areWhole areRounded : Bool} {f : Poly} (h : ∀ e ∈ es, Over S e) :
    Over S (ofPoly es areWhole areRounded f) :=
  over_sum (over_map fun _ _ => over_ofPolyTerm h)

theorem over_commonFactor (ha : Over S a) (hb : Over S b) : Over S (commonFactor a b) := by
  unfold commonFactor
  split
  · rename_i f g hf hg
    refine over_ite over_one (over_ofPoly fun e he => ?_)
    simp only [mem_sortByRank, List.mem_eraseDups, List.mem_flatMap, List.mem_append,
      List.mem_map] at he
    obtain ⟨t, ht | ht, p, hp, rfl⟩ := he
    · exact over_expand? ha f hf t ht p hp
    · exact over_expand? hb g hg t ht p hp
  · simp

/-! ### What the terms of a sum share -/

theorem over_termPowers (h : Over S t) : ∀ p ∈ termPowers t, Over S p.1 := by
  unfold termPowers
  split
  · simp
  · have hfactors := over_factors.mpr (h.of_splitTerm ‹_›)
    intro p hp
    obtain ⟨f, hf, rfl⟩ := List.mem_map.mp hp
    have hf := hfactors f hf
    split
    · split
      · exact (over_pow.mp hf).1
      · exact hf
    · exact hf

theorem over_sharedPowers (h : ∀ t ∈ es, Over S t) : ∀ e ∈ sharedPowers es, Over S e := by
  unfold sharedPowers
  split
  · simp
  · rename_i p ps hps
    refine over_filterMap fun b hb => ?_
    obtain ⟨t, ht, rfl⟩ : ∃ t ∈ es, termPowers t = p :=
      List.mem_map.mp (hps ▸ List.mem_cons_self)
    dsimp only
    split
    · simp
    · exact overOption_some.mpr (over_power (over_termPowers (h t ht) b hb) over_ofInt)

theorem over_pullTerms (h : Over S e) : ∀ f ∈ (pullTerms e).2, Over S f := by
  have hterms := over_terms.mpr h
  have hshared := over_sharedPowers hterms
  unfold pullTerms
  split
  · simpa using h
  · refine over_append hshared (List.forall_mem_singleton.mpr (over_sum (over_map fun t ht => ?_)))
    refine over_product (List.forall_mem_cons.mpr ⟨over_ofRat, List.forall_mem_cons.mpr
      ⟨hterms t ht, over_map fun p hp => over_power (hshared p hp) over_minusOne⟩⟩)

theorem over_keepCoefficient {q : Rat} (h : Over S e) : Over S (keepCoefficient q e) := by
  unfold keepCoefficient
  split
  · exact over_ite h (over_mul.mpr ⟨over_num, h⟩)
  · exact over_timesScalar h

theorem over_divideOut (ha : Over S a) (hb : Over S b) : Over S (divideOut a b) := by
  have hfactors := over_factors.mpr (over_productPair ha (over_power hb over_minusOne))
  refine over_keepCoefficient (over_product (over_flatMap fun p hp => ?_))
  obtain ⟨f, hf, rfl⟩ := List.mem_map.mp hp
  exact over_pullTerms (hfactors f hf)

end Polynomials

/-! ## What stands in whole parts, factorials and remainders

A factorial can fault, but always with a reason to report. In a remainder, dividend
and divisor are reduced and divided by what they share; each rule works with parts of
the two. Where remainders are allowed, so is the fault of dividing by zero.
-/

variable {S : Text → Prop} {a g p q t : Expr} {es : List Expr} {n : Nat}
  {mod : Expr → Expr → Expr}

/-! ### Whole parts -/

theorem over_floorConstant {z : Complex} (h : Over S a) : Over S (floorConstant z a) :=
  over_ite h (over_sumPair over_ofInt (over_productPair over_ofInt over_const))

theorem over_wholeScalar? {s : Scalar} : OverOption S (wholeScalar? s) := by
  unfold wholeScalar?
  split
  · split <;> simp
  · split <;> simp
  · simp

theorem over_wholeTerm? (h : Over S t) : OverOption S (wholeTerm? t) := by
  unfold wholeTerm?
  split
  · exact over_wholeScalar?
  · split
    · exact overOption_some.mpr h
    · split
      · exact over_wholeScalar?.map fun _ => over_imaginary
      · simp

theorem over_wholeOfTerms {f : Fn} {ofConstant : Expr → Expr} (h : ∀ e ∈ es, Over S e)
    (hconstant : ∀ e, Over S e → Over S (ofConstant e)) :
    Over S (wholeOfTerms f ofConstant es) := by
  have hwhole := over_filterMap fun t ht => over_wholeTerm? (h t ht)
  have hleft := over_sum (over_filter h fun t => (wholeTerm? t).isNone)
  refine over_ite (over_sum hwhole) (over_ite ?_ ?_)
  · exact over_sum (over_append hwhole (List.forall_mem_singleton.mpr (hconstant _ hleft)))
  · refine over_sum (over_append hwhole (List.forall_mem_singleton.mpr ?_))
    exact over_ite hleft (over_fn.mpr hleft)

theorem over_floorOfConstant (h : Over S a) : Over S (floorOfConstant a) := by
  unfold floorOfConstant
  split
  · exact over_floorConstant h
  · exact over_fn.mpr h

@[simp] theorem over_floor (h : Over S a) : Over S (floor a) := by
  unfold floor
  split
  · exact h
  · exact h
  · simp
  · exact over_ite h (over_wholeOfTerms (over_terms.mpr h) fun _ => over_floorOfConstant)

@[simp] theorem over_ceil (h : Over S a) : Over S (ceil a) := by
  unfold ceil
  split
  · exact h
  · exact h
  · simp
  · exact over_ite h (over_wholeOfTerms (over_terms.mpr h) fun _ hc =>
      over_negate (over_floorOfConstant (over_negate hc)))

@[simp] theorem over_nearest (h : Over S a) : Over S (nearest a) :=
  over_floor (over_sumPair h over_half)

/-! ### Factorials -/

@[simp] theorem over_factorial (h : Over S a) : Over S (factorial a) := by
  unfold factorial
  split
  · exact h
  · exact h
  · split
    · exact over_fn.mpr h
    · split
      · simp
      · split <;> simp
  · split
    · simp
    · split <;> simp
  · exact h
  · exact h
  · exact over_fn.mpr h

@[simp] theorem over_doubleFactorial (h : Over S a) : Over S (doubleFactorial a) := by
  unfold doubleFactorial
  split
  · exact h
  · exact h
  · exact over_fn.mpr h
  · split
    · simp
    · split
      · simp
      · split <;> simp
  · exact over_fn.mpr h

/-! ### Remainders -/

theorem over_withoutTimes {times : Int} (hp : Over S p) (hq : Over S q) :
    Over S (withoutTimes p q times) := by
  have hleft := over_difference hp (over_productPair (over_ofInt (n := times)) hq)
  exact over_ite (over_sumPair hleft hq) hleft

theorem over_modPair (hp : Over S p) (hq : Over S q) :
    Over S (.fn2 .mod p q) :=
  over_fn2.mpr ⟨hp, hq⟩

theorem over_remainderNow? (hp : Over S p) (hq : Over S q) :
    OverOption S (remainderNow? p q) := by
  unfold remainderNow?
  split
  · simp
  · split
    · simp
    · split
      · simp
      · split
        · refine overOption_some.mpr (OverOption.getD ?_ (over_modPair hp hq))
          rename_i s t _ _ _
          cases s.mod? t <;> simp
        · dsimp only
          split
          · simp
          · cases truncated? (quotient p q) with
            | none => simp
            | some k => exact overOption_some.mpr (over_withoutTimes hp hq)

/-- A remainder that goes by this function holds only what dividend and divisor may. -/
def KeepsOver (S : Text → Prop) (mod : Expr → Expr → Expr) : Prop :=
  ∀ p q, Over S p → Over S q → Over S (mod p q)

theorem over_flattened? (hmod : KeepsOver S mod) (hp : Over S p) (hq : Over S q) :
    OverOption S (flattened? mod p q) := by
  have hneg := over_negate hp
  unfold flattened?
  split
  · obtain ⟨ha, -⟩ := over_fn2.mp hp
    split
    · exact overOption_some.mpr (hmod _ _ ha hq)
    · split
      · exact overOption_some.mpr hp
      · simp
  · rename_i a m hneg'
    obtain ⟨ha, -⟩ := over_fn2.mp (hneg' ▸ hneg)
    split
    · exact overOption_some.mpr (hmod _ _ (over_negate ha) hq)
    · split
      · exact overOption_some.mpr hp
      · simp
  · dsimp only
    split
    · simp
    · refine overOption_some.mpr (hmod _ _ (over_sum (over_map fun t ht => ?_)) hq)
      have ht := over_terms.mpr hp t ht
      split
      · exact (over_fn2.mp ht).1
      · exact ht

theorem over_reduceTerms (hmod : KeepsOver S mod) (hp : Over S p) (hq : Over S q) :
    Over S (reduceTerms mod p q) := by
  refine over_ite hp (over_sum (over_map fun t ht => ?_))
  have ht := over_terms.mpr hp t ht
  exact over_ite ht (hmod t q ht hq)

/-- The three expressions hold only what is allowed. -/
def OverTriple (S : Text → Prop) (t : Expr × Expr × Expr) : Prop :=
  Over S t.1 ∧ Over S t.2.1 ∧ Over S t.2.2

theorem over_reduceRounded (hg : Over S g) (hp : Over S p) (hq : Over S q) :
    OverTriple S (reduceRounded g p q) := by
  have ha := over_splitTerm hp
  have hb := over_splitTerm hq
  unfold reduceRounded
  generalize splitTerm p = u at ha ⊢
  generalize splitTerm q = v at hb ⊢
  obtain ⟨s, a⟩ := u
  obtain ⟨t, b⟩ := v
  have hpick {c : Prop} [Decidable c] {n : Int} : OverTriple S (if c then (g, p, q)
      else (product [g, .num t], product [a.getD one, ofInt n], b.getD one)) := by
    split
    · exact ⟨hg, hp, hq⟩
    · exact ⟨over_productPair hg over_num, over_productPair (ha.getD over_one) over_ofInt,
        hb.getD over_one⟩
  exact hpick

theorem over_modIn (hp : Over S p) (hq : Over S q) :
    Over S (modIn n p q) := by
  induction n generalizing p q with
  | zero => exact over_modPair hp hq
  | succ n ih =>
    have hmod : KeepsOver S (modIn n) := fun _ _ => ih
    have hg := over_commonFactor hp hq
    unfold modIn
    split
    · exact ((over_remainderNow? hp hq).or (over_flattened? hmod hp hq)).of_eq_some ‹_›
    · extract_lets g plain a b
      have ha : Over S a := over_ite hp (over_divideOut hp hg)
      have hb : Over S b := over_ite hq (over_divideOut hq hg)
      have hreduced : OverTriple S
          (if isSum a then (g, reduceTerms (modIn n) a b, b) else reduceRounded g a b) := by
        split
        · exact ⟨hg, over_reduceTerms hmod ha hb, hb⟩
        · exact over_reduceRounded hg ha hb
      generalize (if isSum a then (g, reduceTerms (modIn n) a b, b) else reduceRounded g a b) =
        reduced at hreduced
      obtain ⟨g, p, q⟩ := reduced
      dsimp only
      have hsigned : OverTriple S
          (if leadsMinus p && leadsMinus q then (negate g, negate p, negate q) else (g, p, q)) := by
        obtain ⟨hg, hp, hq⟩ := hreduced
        split
        · exact ⟨over_negate hg, over_negate hp, over_negate hq⟩
        · exact ⟨hg, hp, hq⟩
      generalize
        (if leadsMinus p && leadsMinus q then (negate g, negate p, negate q) else (g, p, q)) =
        signed at hsigned
      obtain ⟨g, p, q⟩ := signed
      obtain ⟨hg, hp, hq⟩ : Over S g ∧ Over S p ∧ Over S q := hsigned
      dsimp only
      split
      · exact over_productPair ((over_remainderNow? hp hq).of_eq_some ‹_›) hg
      · split
        · split
          · exact over_modPair (over_productPair hp hg) hq
          · exact over_productPair hg (over_ite (over_modPair hp hq) (ih hp hq))
        · have hh := hg.of_splitTerm ‹_›
          have hp' :=
            over_ite (p := isRoundedOne ‹_›) (over_productPair (over_num (s := ‹_›)) hp) hp
          exact over_productPair (over_ite hh hg) (over_ite (over_modPair hp' hq) (ih hp' hq))

@[simp] theorem over_mod (hp : Over S p) (hq : Over S q) :
    Over S (Expr.mod p q) := by
  have hboth : ∀ e ∈ [p, q], Over S e := by simp [hp, hq]
  unfold Expr.mod
  split
  · exact over_failed
  · exact over_modIn hp hq

end Formulary.Expr
