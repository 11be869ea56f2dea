import Formulary.Calc.Angle
import Formulary.Proofs.Calc.Over.Power

/-! # What stands in an angle

An angle is taken apart into turns and a rest, all of which have symbols of the
angle only; the values at fractions of a half turn have none.
-/

namespace Formulary.Expr

variable {S : Text → Prop} {a e t x : Expr} {es : List Expr} {q : Rat}

@[simp] theorem over_piTimes : Over S (piTimes q) :=
  over_productPair over_ofRat over_pi

theorem over_without? {es left : List Expr} (h : ∀ e ∈ es, Over S e)
    (hleft : without? x es = some left) : ∀ e ∈ left, Over S e := by
  induction es generalizing left with
  | nil => simp [without?] at hleft
  | cons e es ih =>
    obtain ⟨he, hes⟩ := List.forall_mem_cons.mp h
    unfold without? at hleft
    split at hleft
    · exact Option.some.inj hleft ▸ hes
    · obtain ⟨rest, hrest, rfl⟩ := Option.map_eq_some_iff.mp hleft
      exact List.forall_mem_cons.mpr ⟨he, ih hes hrest⟩

/-! ### Turns -/

/-- What a turn is made of holds only what is allowed. -/
def Turn.IsOver (S : Text → Prop) : Turn → Prop
  | .half _ | .free => True
  | .whole x | .wholeAndHalf x | .scaled x => Over S x

theorem over_belowHalf? (h : Over S e) : OverOption S (belowHalf? e) := by
  unfold belowHalf?
  dsimp only
  split
  · split <;> simp [h]
  · simp

theorem over_turnOfMultiple (ha : Over S a) (h : ∀ e ∈ es, Over S e) :
    (turnOfMultiple a q es).IsOver S := by
  have hmultiple : Over S (product [ofRat q, mulChain es]) := over_product (by simpa using h)
  unfold turnOfMultiple
  split
  · trivial
  · dsimp only
    split
    · have hx := hmultiple.of_splitTerm ‹_›
      split
      · split
        · exact (over_belowHalf? hmultiple).of_eq_some ‹_›
        · exact over_productPair hmultiple over_pi
      · split
        · trivial
        · split
          · exact hx
          · split
            · exact ha
            · exact over_product (by simpa using hx)
    · exact ha

theorem over_turn (h : Over S a) : (turn a).IsOver S := by
  unfold turn
  split
  · trivial
  · trivial
  · have hfactors := over_factors.mpr (h.of_splitTerm ‹_›)
    split
    · trivial
    · exact h
    · exact over_turnOfMultiple h (over_without? hfactors ‹_›)
    · exact h

theorem over_halfTurn? (h : Over S t) : OverOption S (halfTurn? t) := by
  unfold halfTurn?
  split
  · have hfactors := over_factors.mpr (h.of_splitTerm ‹_›)
    split
    · simp
    · dsimp only
      split
      · exact overOption_some.mpr
          (over_timesScalar (over_mulChain.mpr (over_without? hfactors ‹_›)))
      · simp
    · simp
  · simp

theorem over_peelTurns? {p : Peeled} (h : Over S a) (hp : peelTurns? a = some p) :
    Over S p.rest ∧ Over S p.turns := by
  have hterms := over_terms.mpr h
  unfold peelTurns? at hp
  split at hp
  · simp at hp
  · dsimp only at hp
    split at hp
    · simp at hp
    · rw [← Option.some.inj hp]
      constructor
      · refine over_sum (List.forall_mem_append.mpr ⟨?_, by simp⟩)
        exact fun t ht => hterms t (List.mem_filter.mp ht).1
      · refine over_sum fun t ht => ?_
        simp only [List.partition_eq_filter_filter, List.mem_filter, List.mem_filterMap] at ht
        obtain ⟨⟨u, hu, ht⟩, -⟩ := ht
        exact (over_halfTurn? (hterms u hu)).of_eq_some ht

/-! ### Values at fractions of a half turn -/

@[simp] theorem over_cosMultiple? {n : Nat} : OverOption S (cosMultiple? n q) := by
  fun_induction cosMultiple? n q with
  | case1 => simp
  | case2 n q c hc ih => exact ih.map fun _ => over_negate
  | case3 n q c hc hc' ih => exact ih.map fun _ => over_negate
  | case7 => exact overOption_some.mpr (over_product (by simp))
  | case8 n q c h1 h2 h3 h4 h5 h6 a b hab x y ihx ihy ihx' ihy' =>
    refine ihx.bind fun u hu => ihy.bind fun v hv => ihx'.bind fun u' hu' =>
      ihy'.bind fun v' hv' => ?_
    exact overOption_some.mpr
      (over_sumPair (over_productPair hu hv) (over_productPair hu' hv'))
  | case10 n q c h1 h2 h3 h4 h5 h6 h7 h8 ih =>
    refine ih.bind fun u hu => overOption_some.mpr (over_sqrt ?_)
    exact over_productPair over_half (over_sumPair over_one hu)
  | _ => simp

@[simp] theorem over_cosAt? : OverOption S (cosAt? q) := over_cosMultiple?

@[simp] theorem over_sinAt? : OverOption S (sinAt? q) := over_cosMultiple?

@[simp] theorem over_tenthTangent? {tenths : Int} : OverOption S (tenthTangent? tenths) := by
  have hroot (a b : Expr) (c : Expr) (ha : Over S a) (hb : Over S b) (hc : Over S c) :
      Over S (sqrt (sum [a, product [b, c]])) :=
        over_sqrt (over_sumPair ha (over_productPair hb hc))
  unfold tenthTangent?
  dsimp only
  split
  · exact overOption_some.mpr (hroot _ _ _ (by simp) (by simp) (by simp))
  · split
    · exact overOption_some.mpr (hroot _ _ _ (by simp) (by simp) (by simp))
    · split
      · exact overOption_some.mpr (hroot _ _ _ (by simp) (by simp) (by simp))
      · split
        · exact overOption_some.mpr (hroot _ _ _ (by simp) (by simp) (by simp))
        · simp

/-- Both legs hold only what is allowed. -/
def OverLegs (S : Text → Prop) (o : Option (Expr × Expr)) : Prop :=
  ∀ p ∈ o, Over S p.1 ∧ Over S p.2

@[simp] theorem over_legsAt? : OverLegs S (legsAt? q) := by
  intro p hp
  obtain ⟨x, hx, hp⟩ := Option.bind_eq_some_iff.mp hp
  obtain ⟨y, hy, hp⟩ := Option.bind_eq_some_iff.mp hp
  rw [← Option.some.inj hp]
  exact ⟨over_cosAt?.of_eq_some hx, over_sinAt?.of_eq_some hy⟩

theorem OverLegs.bind {o : Option (Expr × Expr)} {f : Expr × Expr → Option Expr} (h : OverLegs S o)
    (hf : ∀ x y, Over S x → Over S y → OverOption S (f (x, y))) : OverOption S (o.bind f) := by
  cases o with
  | none => simp
  | some p => exact hf p.1 p.2 (h p rfl).1 (h p rfl).2

theorem over_legsAt?_if {c : Prop} [Decidable c] :
    OverLegs S (if c then legsAt? q else none) := by
  split
  · simp
  · simp [OverLegs]

@[simp] theorem over_reciprocal (h : Over S a) : Over S (reciprocal a) := over_quotient over_one h

@[simp] theorem over_tanMultiple? {n : Nat} : OverOption S (tanMultiple? n q) := by
  fun_induction tanMultiple? n q with
  | case3 => exact over_tenthTangent?.map fun _ => over_negate
  | case5 n q c h1 h2 x y hlegs =>
    obtain ⟨hx, hy⟩ := over_legsAt?_if (S := S) _ hlegs
    refine overOption_some.mpr ?_
    split
    · simp
    · exact over_difference (over_reciprocal hy) (over_quotient hx hy)
  | case6 n q c h1 h2 h3 a b hab ihx ihy =>
    refine ihx.bind fun x hx => ihy.bind fun y hy => overOption_some.mpr ?_
    exact over_quotient (over_difference hx hy) (over_sumPair over_one (over_productPair hx hy))
  | case7 n q c h1 h2 h3 h4 =>
    refine over_legsAt?.bind fun x y hx hy => overOption_some.mpr ?_
    split <;> simp [hx, hy]
  | _ => simp

@[simp] theorem over_tanAt? : OverOption S (tanAt? q) := over_tanMultiple?

@[simp] theorem over_cotMultiple? {n : Nat} : OverOption S (cotMultiple? n q) := by
  fun_induction cotMultiple? n q with
  | case4 n q c h1 h2 x y hlegs =>
    obtain ⟨hx, hy⟩ := over_legsAt?_if (S := S) _ hlegs
    exact overOption_some.mpr (over_sumPair (over_reciprocal hy) (over_quotient hx hy))
  | case5 n q c h1 h2 h3 a b hab ihx ihy =>
    refine ihx.bind fun x hx => ihy.bind fun y hy => overOption_some.mpr ?_
    exact over_quotient (over_sumPair over_one (over_productPair hx hy)) (over_difference hy hx)
  | case6 n q c h1 h2 h3 h4 =>
    refine over_legsAt?.bind fun x y hx hy => overOption_some.mpr ?_
    split <;> simp [hx, hy]
  | _ => simp

@[simp] theorem over_cotAt? : OverOption S (cotAt? q) := over_cotMultiple?

@[simp] theorem over_folded {f : Fn} : Over S (folded f q) := by
  unfold folded
  dsimp only
  split
  · split <;> simp
  · split <;> simp
  · split
    · split <;> simp
    · split <;> simp
  · split
    · split <;> simp
    · split <;> simp
  · split <;> simp

@[simp] theorem over_circularAt {f : Fn} : Over S (circularAt f q) := by
  unfold circularAt
  refine OverOption.getD ?_ over_folded
  split
  any_goals simp
  · exact over_cosAt?.map fun _ => over_reciprocal
  · exact over_sinAt?.map fun _ => over_reciprocal

end Formulary.Expr
