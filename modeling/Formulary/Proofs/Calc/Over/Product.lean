import Mathlib.Data.Nat.Init
import Formulary.Calc.Product
import Formulary.Calc.Sum
import Formulary.Proofs.Calc.Over.Basic

/-! # What stands in sums and products

The terms of a sum are collected with their coefficients, which have no symbols. The
members of a product become powers, which are collected, settled and joined as pairs
of a base and an exponent; both parts stay within the class through every pass.
-/

namespace Formulary.Expr

section Sum

variable {S : Text → Prop} {a b e t : Expr} {es : List Expr} {s : Scalar}

theorem over_splitTerm (h : Over S e) : OverOption S (splitTerm e).2 := by
  unfold splitTerm
  split <;> simp_all

theorem Over.of_splitTerm (h : Over S e) (hs : splitTerm e = (s, some t)) : Over S t :=
  (over_splitTerm h).of_eq_some (by rw [hs])

@[simp] theorem over_withCoefficient : Over S (withCoefficient s e) ↔ Over S e := by
  unfold withCoefficient
  split <;> simp

theorem over_collect {entries : List (Expr × Scalar)} (ht : Over S t)
    (h : ∀ p ∈ entries, Over S p.1) : ∀ p ∈ collect t s entries, Over S p.1 := by
  induction entries with
  | nil => simpa [collect] using ht
  | cons p entries ih =>
    obtain ⟨hp, hrest⟩ := List.forall_mem_cons.mp h
    unfold collect
    split
    · exact List.forall_mem_cons.mpr ⟨hp, hrest⟩
    · exact List.forall_mem_cons.mpr ⟨hp, ih hrest⟩

theorem over_spreadTerms (h : ∀ e ∈ es, Over S e) : ∀ e ∈ spreadTerms es, Over S e := by
  intro e he
  rcases List.mem_append.mp he with he | he
  · exact h e (List.mem_filter.mp he).1
  · obtain ⟨a, ha, he⟩ := List.mem_flatMap.mp he
    exact over_terms.mpr (h a (List.mem_filter.mp ha).1) e he

theorem over_gatherTerms (h : ∀ e ∈ es, Over S e) : ∀ p ∈ (gatherTerms es).2, Over S p.1 := by
  refine List.foldlRecOn (motive := fun acc : Scalar × List (Expr × Scalar) =>
    ∀ p ∈ acc.2, Over S p.1) (spreadTerms es) _ (by simp) ?_
  rintro ⟨total, entries⟩ hentries e he
  have hover := over_spreadTerms h e he
  dsimp only
  rcases hs : splitTerm e with ⟨s, _ | r⟩
  · exact hentries
  · exact over_collect (hover.of_splitTerm hs) hentries

theorem over_buildSum {total : Scalar} {entries : List (Expr × Scalar)}
    (h : ∀ p ∈ entries, Over S p.1) : Over S (buildSum total entries) := by
  have hmembers : ∀ e ∈ besideTotal total ((entries.filter fun t => !t.2.isZero).map fun t =>
      withCoefficient t.2 t.1), Over S e := by
    intro e he
    have hkept :
        e ∈ (entries.filter fun t => !t.2.isZero).map fun t => withCoefficient t.2 t.1 := by
      unfold besideTotal at he
      split at he
      · exact he
      · exact (List.mem_filter.mp he).1
    obtain ⟨p, hp, rfl⟩ := List.mem_map.mp hkept
    exact over_withCoefficient.mpr (h p (List.mem_filter.mp hp).1)
  unfold buildSum
  split
  · simp
  · dsimp only
    split
    · simp
    · rw [over_addChain]
      split <;> simpa using hmembers

@[simp] theorem over_sum (h : ∀ e ∈ es, Over S e) : Over S (sum es) := by
  unfold sum
  split
  · exact over_failed
  · exact over_buildSum (over_gatherTerms h)

theorem over_sumPair (ha : Over S a) (hb : Over S b) : Over S (sum [a, b]) :=
  over_sum (by simp [ha, hb])

@[simp] theorem over_scaleTerm (h : Over S e) : Over S (scaleTerm s e) := by
  unfold scaleTerm
  split
  · simp
  · exact over_withCoefficient.mpr (h.of_splitTerm ‹_›)

@[simp] theorem over_timesScalar (h : Over S e) : Over S (timesScalar s e) := by
  unfold timesScalar
  split
  · exact h
  · simp
  · split
    · simp
    · split
      · simp
      · apply over_sum
        intro e' he'
        obtain ⟨t, ht, rfl⟩ := List.mem_map.mp he'
        exact over_scaleTerm (over_terms.mpr h t ht)
      · exact over_scaleTerm h

@[simp] theorem over_negate (h : Over S e) : Over S (negate e) := over_timesScalar h

@[simp] theorem over_difference (ha : Over S a) (hb : Over S b) : Over S (difference a b) :=
  over_sumPair ha (over_negate hb)

end Sum

/-! ### Lists of powers -/

variable {S : Text → Prop} {a b c e : Expr} {es : List Expr} {p q : Power} {ps qs : List Power}
  {s t : Scalar}

/-- Bases and exponents hold only what is allowed. -/
def OverPowers (S : Text → Prop) (ps : List Power) : Prop := ∀ p ∈ ps, Over S p.1 ∧ Over S p.2

@[simp] theorem overPowers_nil : OverPowers S [] := by simp [OverPowers]

@[simp] theorem overPowers_cons :
    OverPowers S (p :: ps) ↔ (Over S p.1 ∧ Over S p.2) ∧ OverPowers S ps :=
  List.forall_mem_cons

@[simp] theorem overPowers_append :
    OverPowers S (ps ++ qs) ↔ OverPowers S ps ∧ OverPowers S qs :=
  List.forall_mem_append

theorem OverPowers.filter (h : OverPowers S ps) (keep : Power → Bool) :
    OverPowers S (ps.filter keep) :=
  fun p hp => h p (List.mem_filter.mp hp).1

theorem overPowers_map {α : Type} {l : List α} {f : α → Power}
    (h : ∀ x ∈ l, Over S (f x).1 ∧ Over S (f x).2) : OverPowers S (l.map f) := by
  intro p hp
  obtain ⟨x, hx, rfl⟩ := List.mem_map.mp hp
  exact h x hx

theorem overPowers_flatMap {α : Type} {l : List α} {f : α → List Power}
    (h : ∀ x ∈ l, OverPowers S (f x)) : OverPowers S (l.flatMap f) := by
  intro p hp
  obtain ⟨x, hx, hp⟩ := List.mem_flatMap.mp hp
  exact h x hx p hp

/-! ### Members as powers -/

theorem over_spreadFactors (h : ∀ e ∈ es, Over S e) : ∀ e ∈ spreadFactors es, Over S e := by
  intro e he
  rcases List.mem_append.mp he with he | he
  · exact h e (List.mem_filter.mp he).1
  · obtain ⟨a, ha, he⟩ := List.mem_flatMap.mp he
    exact over_factors.mpr (h a (List.mem_filter.mp ha).1) e he

theorem over_toPower (h : Over S e) : Over S (toPower e).1 ∧ Over S (toPower e).2 := by
  unfold toPower
  split
  · split <;> simp_all
  all_goals simp_all

theorem over_ofPower (h : Over S p.1 ∧ Over S p.2) : Over S (ofPower p) := by
  unfold ofPower
  split
  · exact h.1
  · split
    · simp
    · exact over_pow.mpr h

theorem over_raise {n : Int} (h : Over S e) : OverPowers S (raise e n) := by
  fun_induction raise e n with
  | case1 a b n iha ihb => simp_all
  | case2 b e n x k hk ih => exact ih (over_pow.mp h).1
  | case3 b e n x hx =>
    obtain ⟨hb, he⟩ := over_pow.mp h
    exact overPowers_cons.mpr ⟨⟨hb, over_timesScalar he⟩, overPowers_nil⟩
  | _ => simp_all

theorem over_collectPower (hp : Over S p.1 ∧ Over S p.2) (h : OverPowers S ps) :
    OverPowers S (collectPower p ps) := by
  fun_induction collectPower p ps <;> simp_all

theorem over_gatherPowers {acc : Scalar × List Power} (hp : Over S p.1 ∧ Over S p.2)
    (h : OverPowers S acc.2) : OverPowers S (gatherPowers acc p).2 := by
  unfold gatherPowers
  split
  · split
    · exact h
    · exact over_collectPower hp h
  · exact over_collectPower hp h

theorem over_gatherAll (h : OverPowers S ps) : OverPowers S (ps.foldl gatherPowers (s, [])).2 :=
  List.foldlRecOn (motive := fun acc : Scalar × List Power => OverPowers S acc.2)
    ps _ overPowers_nil fun _ hacc p hp => over_gatherPowers (h p hp) hacc

@[simp] theorem over_rootPowers {r : Scalar × List Radical.Root} :
    OverPowers S (rootPowers r).2 :=
  overPowers_map (by simp)

@[simp] theorem over_fractionPower {q r : Rat} : OverPowers S (fractionPower q r).2 := by
  unfold fractionPower
  split <;> simp

/-! ### Powers of `e` and of zero -/

theorem over_logArgument? (h : ∀ e ∈ es, Over S e) : OverOption S (logArgument? es) := by
  unfold logArgument?
  split <;> simp_all

theorem over_powersOf (ha : Over S a) (hc : Over S c) : OverPowers S (powersOf a c).2 := by
  unfold powersOf
  split
  · exact over_raise ha
  · simp
  · simp [ha, hc]

theorem over_expTerm? {k : Scalar × List Power} (h : Over S e) (hk : expTerm? e = some k) :
    OverPowers S k.2 := by
  have hfactors := over_factors.mpr h
  unfold expTerm? at hk
  split at hk
  · simp [← Option.some.inj hk]
  · simp [← Option.some.inj hk]
  · simp [← Option.some.inj hk]
  · simp [← Option.some.inj hk]
  · split at hk
    · simp [← Option.some.inj hk]
    · simp [← Option.some.inj hk]
    · dsimp only at hk
      split at hk
      · rename_i a ha
        split at hk
        · rw [← Option.some.inj hk]
          refine over_powersOf (over_logArgument? ?_ a ha) (over_mulChain.mpr ?_)
          · simp +contextual [hfactors]
          · simp +contextual [hfactors]
        · simp at hk
      · simp at hk

theorem over_expPowers (h : Over S e) : OverPowers S (expPowers e).2 := by
  have hterms := over_terms.mpr h
  have hleft : Over S (sum ((terms e).filter fun u => (expTerm? u).isNone)) :=
    over_sum fun u hu => hterms u (List.mem_filter.mp hu).1
  have hknown : OverPowers S (((terms e).filterMap expTerm?).flatMap (·.2)) := by
    apply overPowers_flatMap
    intro k hk
    obtain ⟨u, hu, hk⟩ := List.mem_filterMap.mp hk
    exact over_expTerm? (hterms u hu) hk
  unfold expPowers
  refine overPowers_append.mpr ⟨hknown, ?_⟩
  split <;> simp [hleft]

theorem over_zeroPower (h : Over S e) : OverPowers S (zeroPower e).2 := by
  unfold zeroPower
  split
  · have hr := h.of_splitTerm ‹_›
    split <;> simp [hr]
  · simp

theorem over_sizePower {n : Int} (h : Over S a) : OverPowers S (sizePower a n) := by
  unfold sizePower
  split
  · simp [h]
  · split <;> simp [h]

/-! ### Settled powers -/

@[simp] theorem over_positivePower : OverPowers S (positivePower s t).2 := by
  unfold positivePower
  split
  · simp
  · dsimp only
    split <;> simp

theorem over_releaseGreatest? {k : Scalar × List Power} (hb : Over S b) (he : Over S e)
    (hk : releaseGreatest? b e = some k) : OverPowers S k.2 := by
  unfold releaseGreatest? at hk
  split at hk
  · rename_i a b t
    have hmeasured (big : Scalar) : Over S (sum (((terms (.add a b)).map splitTerm).map fun p =>
        timesScalar (overGreatest big p.1) (p.2.getD one))) := by
      refine over_sum ?_
      simp only [List.map_map, List.mem_map, Function.comp_apply, forall_exists_index, and_imp,
        forall_apply_eq_imp_iff₂]
      intro t ht
      apply over_timesScalar
      exact (over_splitTerm (over_terms.mpr hb t ht)).getD over_one
    dsimp only at hk
    split at hk
    · simp at hk
    · rw [← Option.some.inj hk]
      exact overPowers_append.mpr ⟨over_positivePower, by simp only [overPowers_cons, hmeasured, he,
        overPowers_nil, and_self]⟩
  · simp at hk

theorem over_settlePower (hb : Over S b) (he : Over S e) : OverPowers S (settlePower (b, e)).2 := by
  unfold settlePower
  split
  · rename_i heq
    obtain ⟨-, rfl⟩ := Prod.mk.inj heq
    exact over_zeroPower he
  · simp
  · simp
  · dsimp only
    split
    · simp
    · split <;> simp_all
  · rename_i heq
    obtain ⟨-, rfl⟩ := Prod.mk.inj heq
    exact over_expPowers he
  · rename_i heq
    obtain ⟨rfl, rfl⟩ := Prod.mk.inj heq
    have ha := over_fn.mp hb
    split <;> simp [ha, over_sizePower]
  · rename_i heq
    obtain ⟨rfl, rfl⟩ := Prod.mk.inj heq
    split
    · simp
    · split
      · exact over_releaseGreatest? hb he ‹_›
      · split
        · split <;> simp_all [over_raise]
        · simp_all

theorem over_normalPowers {n : Nat} {acc : Scalar × List Power} (h : OverPowers S acc.2) :
    OverPowers S (normalPowers n acc).2 := by
  induction n generalizing acc with
  | zero => exact h
  | succ n ih =>
    apply ih
    apply over_gatherAll
    apply overPowers_flatMap
    intro k hk
    obtain ⟨q, hq, rfl⟩ := List.mem_map.mp hk
    exact over_settlePower (h q hq).1 (h q hq).2

/-! ### The product -/

theorem over_besideCoefficient (h : ∀ e ∈ es, Over S e) :
    ∀ e ∈ (besideCoefficient s es).2, Over S e := by
  unfold besideCoefficient
  split
  · simp +contextual [h]
  · simp +contextual [h]
  · exact h

theorem over_joinPower (hp : Over S p.1 ∧ Over S p.2) (h : OverPowers S ps) :
    OverPowers S (joinPower p ps) := by
  fun_induction joinPower p ps <;> simp_all

theorem over_joinPowers (h : OverPowers S ps) : OverPowers S (joinPowers ps) := by
  have hfold : OverPowers S (ps.foldl (fun qs p => joinPower p qs) []) :=
    List.foldlRecOn (motive := OverPowers S) ps _ overPowers_nil
      fun _ hqs p hp => over_joinPower (h p hp) hqs
  exact hfold.filter _

theorem over_buildProduct (h : OverPowers S ps) : Over S (buildProduct s ps) := by
  have hmembers : ∀ e ∈ (besideCoefficient s (inOrder (ps.map ofPower))).2, Over S e := by
    apply over_besideCoefficient
    simp only [mem_inOrder, List.mem_map, forall_exists_index, and_imp, forall_apply_eq_imp_iff₂]
    exact fun p hp => over_ofPower (h p hp)
  unfold buildProduct
  split
  · simp
  · split
    · simp
    · split
      · simp
      · dsimp only
        split
        · simp
        · split
          · simp_all
          · split <;> simp_all
        · split <;> simp_all

theorem over_ofPowers (h : OverPowers S ps) : Over S (ofPowers s ps) := by
  have hnormal : OverPowers S (normalPowers passes (ps.foldl gatherPowers (s, []))).2 :=
    over_normalPowers (over_gatherAll h)
  exact over_buildProduct (over_joinPowers hnormal)

theorem over_timesExact {q : Rat} (h : Over S e) : Over S (timesExact q e) := by
  unfold timesExact
  split
  · exact over_ofPowers (overPowers_map fun f hf => over_toPower (over_factors.mpr h f hf))
  · exact over_timesScalar h

@[simp] theorem over_product (h : ∀ e ∈ es, Over S e) : Over S (product es) := by
  unfold product
  split
  · exact over_failed
  · split
    · exact over_timesExact (by simp_all)
    · exact over_timesExact (by simp_all)
    · exact over_ofPowers (overPowers_map fun f hf => over_toPower (over_spreadFactors h f hf))

theorem over_productPair (ha : Over S a) (hb : Over S b) : Over S (product [a, b]) :=
  over_product (by simp [ha, hb])

end Formulary.Expr
