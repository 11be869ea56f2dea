import Formulary.Calc.Inverse
import Formulary.Calc.Trigonometry
import Formulary.Proofs.Calc.Over.Logarithm

/-! # What stands in circular and hyperbolic functions

Every rule that undoes, shifts or turns a function makes factors without symbols
and arguments with the symbols of the old argument.
-/

namespace Formulary.Expr

variable {S : Text → Prop} {a b e t x y : Expr} {f : Fn} {n : Nat} {s : Scalar} {quarters : Int}

@[simp] theorem over_atSingular : Over S (atSingular f s) := by
  unfold atSingular
  split <;> (try split) <;> simp

@[simp] theorem over_atZero : Over S (atZero f) := by
  unfold atZero
  split <;> simp

/-! ### Legs -/

@[simp] theorem over_square (h : Over S a) : Over S (square a) := over_power h over_ofInt

@[simp] theorem over_inverseRoot (h : Over S a) : Over S (inverseRoot a) := over_power h over_ofRat

@[simp] theorem overLegs_none : OverLegs S none := by simp [OverLegs]

@[simp] theorem overLegs_some : OverLegs S (some (x, y)) ↔ Over S x ∧ Over S y := by
  simp [OverLegs]

theorem over_circularLegs? (h : Over S a) : OverLegs S (circularLegs? a) := by
  unfold circularLegs?
  split
  · rename_i x
    have hx : Over S x := over_fn.mp h
    exact overLegs_some.mpr ⟨hx, over_sqrt (over_difference over_one (over_square hx))⟩
  · rename_i x
    have hx : Over S x := over_fn.mp h
    exact overLegs_some.mpr ⟨over_sqrt (over_difference over_one (over_square hx)), hx⟩
  · rename_i x
    have hx : Over S x := over_fn.mp h
    have hroot := over_inverseRoot (over_sumPair over_one (over_square hx))
    exact overLegs_some.mpr ⟨over_productPair hx hroot, hroot⟩
  · rename_i y x
    obtain ⟨hy, hx⟩ : Over S y ∧ Over S x := over_fn2.mp h
    have hroot := over_inverseRoot (over_sumPair (over_square hx) (over_square hy))
    exact overLegs_some.mpr ⟨over_productPair hy hroot, over_productPair hx hroot⟩
  · exact overLegs_none

theorem over_hyperbolicLegs? (h : Over S a) : OverLegs S (hyperbolicLegs? a) := by
  unfold hyperbolicLegs?
  split
  · rename_i x
    have hx : Over S x := over_fn.mp h
    exact overLegs_some.mpr ⟨hx, over_sqrt (over_sumPair over_one (over_square hx))⟩
  · rename_i x
    have hx : Over S x := over_fn.mp h
    have hroots := over_productPair (over_sqrt (over_sumPair hx over_minusOne))
      (over_sqrt (over_sumPair hx over_one))
    exact overLegs_some.mpr ⟨hroots, hx⟩
  · rename_i x
    have hx : Over S x := over_fn.mp h
    have hroot := over_inverseRoot (over_difference over_one (over_square hx))
    exact overLegs_some.mpr ⟨over_productPair hx hroot, hroot⟩
  · exact overLegs_none

theorem over_ofLegs? (h : Over S a) : OverOption S (ofLegs? f a) := by
  unfold ofLegs?
  dsimp only
  split
  · refine (over_hyperbolicLegs? h).bind fun y x hy hx => ?_
    split <;> simp [hx, hy]
  · refine (over_circularLegs? h).bind fun y x hy hx => ?_
    split <;> simp [hx, hy]

/-! ### Shifts -/

theorem over_shiftWhole (h : Over S t) : Over S (shiftWhole f t quarters).1 := by
  have hsign : Over S (power minusOne (sum [t, ofInt (quarters / 2)])) :=
    over_power over_minusOne (over_sumPair h over_ofInt)
  unfold shiftWhole
  dsimp only
  split
  · exact hsign
  · split
    · exact over_negate hsign
    · exact hsign
  · split <;> simp
  · simp

theorem over_shiftImaginary : Over S (shiftImaginary f quarters).1 := by
  unfold shiftImaginary
  dsimp only
  split <;> simp

theorem over_peelImaginary? {k : Int} (h : Over S a) (hp : peelImaginary? a = some (x, k)) :
    Over S x := by
  unfold peelImaginary? at hp
  split at hp
  · simp at hp
  · obtain ⟨q, -, hp⟩ := Option.bind_eq_some_iff.mp hp
    dsimp only at hp
    split at hp
    · simp at hp
    · obtain ⟨rfl, -⟩ := Prod.mk.inj (Option.some.inj hp)
      exact over_difference h (over_productPair over_ofRat (over_imaginary over_pi))

theorem over_turned : Over S (turned f).1 := by
  unfold turned
  split <;> simp

/-! ### The functions -/

theorem over_withParity (h : Over S e) : Over S (withParity f e) :=
  over_ite (over_negate h) h

theorem over_wave? (h : Over S a) : OverOption S (wave? n f a) := by
  induction n generalizing f a with
  | zero => simp [wave?]
  | succ n ih =>
    have hgo (g : Fn) {x : Expr} (hx : Over S x) : Over S ((wave? n g x).getD (.fn g x)) :=
      (ih hx).getD (over_fn.mpr hx)
    unfold wave?
    split
    · exact overOption_some.mpr h
    · exact overOption_some.mpr h
    · rw [overOption_some]
      split <;> simp
    · split
      · simp
      · split
        · exact overOption_some.mpr (over_withParity (hgo f (over_negate h)))
        · simp
    · simp
    · split
      · have hx := (over_imaginaryFactor? h).of_eq_some ‹_›
        exact overOption_some.mpr (over_productPair over_turned (hgo _ hx))
      · split
        · exact overOption_some.mpr (over_withParity (hgo f (over_negate h)))
        · split
          · split
            · have hx := over_peelImaginary? h ‹_›
              exact overOption_some.mpr (over_productPair over_shiftImaginary (hgo _ hx))
            · exact over_ofLegs? h
          · have hturn := over_turn h
            split
            · dsimp only
              split <;> simp
            · rename_i x hx
              have hx : Over S x := by rwa [hx] at hturn
              rw [overOption_some]
              split
              · exact over_power over_minusOne hx
              · simp
              · simp
            · rename_i x hx
              have hx : Over S x := by rwa [hx] at hturn
              split
              · exact overOption_some.mpr (over_power over_minusOne hx)
              · simp
              · have hb := over_productPair (over_sumPair hx over_half) (over_pi (S := S))
                dsimp only
                split
                · simp
                · exact overOption_some.mpr (hgo _ hb)
            · rename_i b hb
              have hb : Over S b := by rwa [hb] at hturn
              split
              · simp
              · exact overOption_some.mpr (hgo f hb)
            · split
              · obtain ⟨hx, hturns⟩ := over_peelTurns? h ‹_›
                split
                · rw [overOption_some]
                  exact over_ite (over_negate (hgo _ hx)) (hgo _ hx)
                · exact overOption_some.mpr (over_productPair (over_shiftWhole hturns) (hgo _ hx))
              · exact over_ofLegs? h

@[simp] theorem over_wave (h : Over S a) : Over S (wave f a) := (over_wave? h).getD (over_fn.mpr h)

theorem over_inverseOf (h : Over S t) : Over S (inverseOf t) := by
  have hneg := over_negate h
  unfold inverseOf
  split
  · exact over_fn.mpr (over_fn.mp h)
  · exact over_fn.mpr (over_fn.mp h)
  · split
    · simp_all
    · simp_all
    · exact over_reciprocal h

@[simp] theorem over_inverseWave (h : Over S a) : Over S (inverseWave f a) := by
  have hinverse (base : Fn) {a : Expr} (h : Over S a) :
      Over S (((wave? ruleLimit base a).map inverseOf).getD (.fn f a)) :=
    ((over_wave? h).map fun _ => over_inverseOf).getD (over_fn.mpr h)
  unfold inverseWave
  dsimp only
  split
  · exact h
  · exact h
  · split <;> simp
  · split
    · simp
    · split
      · exact over_withParity (over_fn.mpr (over_negate h))
      · exact over_fn.mpr h
  · simp
  · split
    · refine over_withParity ?_
      split
      · simp
      · exact hinverse _ (over_negate h)
    · split
      · simp
      · exact hinverse _ h

/-! ## What stands in inverse functions

Known angles have no symbols, and an angle is brought into its range by periods
without symbols.
-/

variable {θ : Expr}

/-! ### Angles in range -/

theorem over_angleOfSine? (h : Over S θ) : OverOption S (angleOfSine? θ) := by
  refine (over_withinPeriod? over_piTimes h).bind fun a ha => ?_
  have hfold {c b : Expr} (hc : Over S c) (hb : Over S b) {p : Prop} [Decidable p] :
      Over S (if p then difference c b else b) :=
    over_ite (over_difference hc hb) hb
  exact overOption_some.mpr (hfold (over_negate over_pi) (hfold over_pi (hfold over_pi ha)))

theorem over_angleOfCosine? (h : Over S θ) : OverOption S (angleOfCosine? θ) := by
  refine (over_withinPeriod? over_piTimes h).bind fun a ha => overOption_some.mpr ?_
  exact over_ite (over_difference over_piTimes ha) ha

theorem over_angleOfTangent? (h : Over S θ) : OverOption S (angleOfTangent? θ) := by
  refine (over_withinPeriod? over_pi h).bind fun a ha => overOption_some.mpr ?_
  exact over_ite (over_difference ha over_pi) ha

theorem over_angleOfCotangent? (h : Over S θ) : OverOption S (angleOfCotangent? θ) := by
  refine (over_angleOfTangent? h).bind fun a ha => overOption_some.mpr ?_
  have hcomplement := over_difference over_halfPi ha
  exact over_ite (over_difference hcomplement over_pi) hcomplement

theorem over_undone? (h : Over S a) : OverOption S (undone? f a) := by
  unfold undone?
  split
  · exact over_angleOfSine? (over_fn.mp h)
  · exact (over_angleOfCosine? (over_fn.mp h)).map fun _ => over_difference over_halfPi
  · exact over_angleOfCosine? (over_fn.mp h)
  · exact (over_angleOfSine? (over_fn.mp h)).map fun _ => over_difference over_halfPi
  · exact over_angleOfCosine? (over_difference over_pi (over_fn.mp (over_mul.mp h).2))
  · exact (over_angleOfSine? (over_fn.mp (over_mul.mp h).2)).map fun _ => over_sumPair over_halfPi
  · exact over_angleOfTangent? (over_fn.mp h)
  · exact over_angleOfCotangent? (over_fn.mp h)
  · split
    · exact overOption_some.mpr (over_fn.mp h)
    · simp
  · split
    · exact overOption_some.mpr (over_fn.mp h)
    · simp
  · rename_i x
    have hx : Over S x := over_fn.mp h
    cases sign? x with
    | none => simp
    | some s =>
      exact overOption_some.mpr (over_ite (over_negate hx) hx)
  · simp

/-! ### The functions -/

theorem over_root {n : Int} : Over S (root n) := over_sqrt over_ofInt

theorem over_inverseAtInt? {n : Int} : OverOption S (inverseAtInt? f n) := by
  unfold inverseAtInt?
  split
  · split
    · simp
    · split <;> simp
  · split
    · simp
    · split
      · simp
      · split <;> simp
  · split
    · simp
    · split <;> simp
  · split
    · simp
    · split
      · exact overOption_some.mpr (over_fn.mpr (over_sumPair over_root over_one))
      · split
        · exact overOption_some.mpr (over_fn.mpr (over_sumPair over_root over_minusOne))
        · simp
  · split
    · simp
    · split
      · simp
      · split
        · exact overOption_some.mpr (over_imaginary over_pi)
        · simp
  · split
    · simp
    · split
      · simp
      · split <;> simp
  · simp

theorem over_knownAngle? : OverOption S (knownAngle? f a) := by
  have hmap {o : Option Rat} {g : Rat → Expr} (hg : ∀ q, Over S (g q)) :
      OverOption S (o.map g) := by
    cases o with
    | none => simp
    | some q => exact overOption_some.mpr (hg q)
  unfold knownAngle?
  split
  · exact hmap fun _ => over_piTimes
  · exact (hmap fun _ => over_piTimes).or (hmap fun _ => over_piTimes)
  · exact hmap fun _ => over_piTimes
  · exact (hmap fun _ => over_imaginary over_piTimes).or (hmap fun _ => over_imaginary over_piTimes)
  · simp

theorem over_roundedInverse {p : Nat} {x : Binary} : Over S (roundedInverse f p x) := by
  unfold roundedInverse
  split
  · exact over_inverseAtInt?.getD over_zero
  · split <;> simp

theorem over_inverseWave? (h : Over S a) : OverOption S (inverseWave? n f a) := by
  induction n generalizing f a with
  | zero => simp [inverseWave?]
  | succ n ih =>
    have hgo (g : Fn) {x : Expr} (hx : Over S x) : Over S ((inverseWave? n g x).getD (.fn g x)) :=
      (ih hx).getD (over_fn.mpr hx)
    unfold inverseWave?
    split
    · exact overOption_some.mpr h
    · exact overOption_some.mpr h
    · exact overOption_some.mpr over_roundedInverse
    · simp
    · simp
    · simp
    · split
      · rename_i e he
        obtain ⟨k, -, he⟩ := Option.bind_eq_some_iff.mp he
        exact overOption_some.mpr (over_inverseAtInt?.of_eq_some he)
      · split
        · exact overOption_some.mpr (over_negate (hgo f (over_negate h)))
        · split
          · exact overOption_some.mpr (over_knownAngle?.of_eq_some ‹_›)
          · split
            · have hx := (over_imaginaryFactor? h).of_eq_some ‹_›
              split
              · exact overOption_some.mpr (over_imaginary (hgo _ hx))
              · split
                · exact overOption_some.mpr (over_difference over_halfPi (hgo _ h))
                · exact over_undone? h
            · exact over_undone? h

@[simp] theorem over_ofInverse (h : Over S a) : Over S (ofInverse f a) :=
  (over_inverseWave? h).getD (over_fn.mpr h)

@[simp] theorem over_atan2 (hy : Over S y) (hx : Over S x) : Over S (atan2 y x) := by
  have hboth : ∀ e ∈ [y, x], Over S e := by simp [hy, hx]
  have hangle : Over S (ofInverse .atan (quotient y x)) := over_ofInverse (over_quotient hy hx)
  unfold atan2
  split
  · exact over_failed
  · dsimp only
    split
    · split
      · split
        · split <;> simp
        · simp
      · split <;> simp [hx, hy]
    · split
      · exact hangle
      · split
        · exact over_difference hangle over_pi
        · split
          · exact over_sumPair hangle over_pi
          · split
            · split
              · simp
              · split <;> simp
            · split
              · have hsquares := over_sumPair (over_square hx) (over_square hy)
                have hpoint := over_sumPair hx (over_imaginary hy)
                exact over_negate (over_imaginary (over_log
                  (over_quotient hpoint (over_sqrt hsquares))))
              · exact over_fn2.mpr ⟨hy, hx⟩

end Formulary.Expr
