import Formulary.Calc.Extreme
import Formulary.Calc.Size
import Formulary.Proofs.Calc.Over.Trigonometry

/-! # What stands in a size and a sign

Members of a product are told apart by what is known of their sizes and signs; each
group keeps the symbols of its members.
-/

namespace Formulary.Expr

variable {S : Text → Prop} {a e f : Expr} {es : List Expr}

theorem over_settleSigns (h : Over S e) : Over S (settleSigns e).2 := by
  fun_induction settleSigns e with
  | case1 a b e hminus => exact over_negate h
  | case2 a b e hminus => exact h
  | case3 a b s x hx t y hy iha ihb =>
    rw [hx] at iha
    rw [hy] at ihb
    obtain ⟨ha, hb⟩ := over_mul.mp h
    dsimp only
    exact over_ite (over_productPair (iha ha) (ihb hb)) (over_mul.mpr ⟨iha ha, ihb hb⟩)
  | case4 a x b n hn hb ih =>
    obtain ⟨ha, hx⟩ := over_pow.mp h
    rw [hb] at ih
    exact over_power (ih ha) hx
  | case5 a x hx ih => exact h
  | case6 e he => exact h

theorem over_imaginarySize (h : Over S a) : Over S (imaginarySize a) := by
  have hturned := over_productPair (a := .const .i) over_const h
  exact over_ite (over_negate hturned) hturned

theorem over_knownSize? (h : Over S f) : OverOption S (knownSize? f) := by
  unfold knownSize?
  dsimp only
  split
  · simp
  · simp
  · exact overOption_some.mpr (over_ite h (over_fn.mpr h))
  · split
    · exact overOption_some.mpr h
    · split
      · exact overOption_some.mpr (over_negate h)
      · split
        · exact overOption_some.mpr (over_imaginarySize h)
        · split
          · exact overOption_some.mpr (over_fn.mpr h)
          · split
            · obtain ⟨hb, hx⟩ := over_pow.mp h
              split
              · simp
              · split
                · exact overOption_some.mpr h
                · split
                  · exact overOption_some.mpr (over_fn.mpr h)
                  · split
                    · exact overOption_some.mpr (over_ite h (over_power (over_fn.mpr hb) hx))
                    · simp
            · simp

theorem over_sizeOfSingle (h : Over S a) : Over S (sizeOfSingle a) := by
  unfold sizeOfSingle
  split
  · simp
  · simp
  · exact h
  · exact (over_knownSize? h).getD (over_fn.mpr h)

theorem over_memberSize (h : Over S f) :
    (∀ e ∈ (memberSize f).1, Over S e) ∧ ∀ e ∈ (memberSize f).2, Over S e := by
  have hknown {e : Expr} (he : knownSize? f = some e) : Over S e :=
    (over_knownSize? h).of_eq_some he
  unfold memberSize
  split
  · obtain ⟨hb, hx⟩ := over_pow.mp h
    split
    · split
      · split
        · have he := over_power ((over_knownSize? hb).of_eq_some ‹_›) hx
          simp [he]
        · simp [hb, hx]
      · split <;> simp_all
    · split <;> simp_all
  · split <;> simp_all

theorem over_sizeOfMembers (h : ∀ e ∈ es, Over S e) : Over S (sizeOfMembers es) := by
  have hparts (part : List Expr × List Expr → List Expr)
      (hpart : ∀ f, Over S f → ∀ e ∈ part (memberSize f), Over S e) :
      ∀ e ∈ (es.map memberSize).flatMap part, Over S e := by
    refine over_flatMap fun p hp => ?_
    obtain ⟨f, hf, rfl⟩ := List.mem_map.mp hp
    exact hpart f (h f hf)
  have hunknown := hparts (·.2) fun f hf => (over_memberSize hf).2
  unfold sizeOfMembers
  refine over_product (over_append (hparts (·.1) fun f hf => (over_memberSize hf).1) ?_)
  split
  · simp
  · exact List.forall_mem_singleton.mpr (over_fn.mpr (over_product hunknown))

theorem over_sizeOf (h : Over S a) : Over S (sizeOf a) := by
  have hfactors := over_factors.mpr h
  unfold sizeOf
  split
  · exact over_sizeOfSingle (by simp_all)
  · exact over_sizeOfMembers hfactors

@[simp] theorem over_abs (h : Over S a) : Over S (abs a) := by
  unfold abs
  split
  · exact h
  · exact h
  · simp
  · simp
  · simp
  · split
    · exact over_ite (over_negate h) h
    · have hsettled := over_settleSigns h
      have hfactors := over_factors.mpr hsettled
      dsimp only
      split
      · refine over_quotient (over_sizeOf (over_product (over_filter hfactors _)))
          (over_sizeOf (over_product (over_map fun f hf => ?_)))
        exact over_power (over_filter hfactors _ f hf) over_minusOne
      · exact over_ite (over_sizeOfMembers hfactors) (over_sizeOf hsettled)

theorem over_memberSign? : OverOption S (memberSign? f) := by
  unfold memberSign?
  dsimp only
  split
  · simp
  · split
    · simp
    · cases imaginarySign? f <;> simp

@[simp] theorem over_sign (h : Over S a) : Over S (sign a) := by
  have hfactors := over_factors.mpr h
  unfold sign
  split
  · exact h
  · exact h
  · simp
  · simp
  · split
    · simp
    · simp
    · dsimp only
      split
      · simp
      · split
        · simp
        · split
          · exact h
          · exact over_fn.mpr h
          · split
            · exact over_fn.mpr h
            · refine over_productPair (over_product (over_filterMap fun f _ => over_memberSign?)) ?_
              have hrest := over_filter hfactors fun f => (memberSign? f).isNone
              split
              · simp_all
              · simp
              · exact over_fn.mpr (over_mulChain.mpr hrest)

/-! ## What stands in an extreme

Members are dropped, absorbed and brought out, but never made up.
-/

variable {m : Expr} {g : Fn2} {n : Nat}

theorem over_extremeMembers (h : Over S e) : ∀ m ∈ extremeMembers g e, Over S m := by
  fun_induction extremeMembers g e with
  | case1 a b iha ihb =>
    obtain ⟨ha, hb⟩ := over_fn2.mp h
    exact over_append (iha ha) (ihb hb)
  | case2 f a b hf => simpa using h
  | case3 e he => simpa using h

theorem over_extremeChain (h : ∀ e ∈ es, Over S e) :
    Over S (extremeChain g es) := by
  unfold extremeChain
  simp only [List.partition_eq_filter_filter]
  refine (over_chain over_num fun _ _ => by simp).mpr (over_append (over_filter h _) ?_)
  intro e he
  exact over_filter h _ e (mem_inOrder.mp he)

theorem over_absorb (hm : Over S m) (h : Over S e) : Over S (absorb g m n e) := by
  induction n generalizing e with
  | zero => exact h
  | succ n ih =>
    unfold absorb
    split
    · rename_i g' _ _
      split
      · exact h
      · have hinner := over_extremeMembers (g := g') h
        dsimp only
        split
        · exact over_extremeChain (over_map fun x hx => ih (hinner x hx))
        · split
          · exact over_extremeChain (over_map fun x hx => ih (over_filter hinner _ x hx))
          · exact hm
    · exact h

theorem over_absorbAll (h : ∀ e ∈ es, Over S e) : ∀ e ∈ absorbAll g n es, Over S e := by
  fun_induction absorbAll g n es with
  | case1 es => exact h
  | case2 n => simp
  | case3 n e es ih =>
    obtain ⟨he, hes⟩ := List.forall_mem_cons.mp h
    exact List.forall_mem_cons.mpr ⟨he, ih (over_map fun x hx => over_absorb he (hes x hx))⟩

theorem over_dropBounded (h : ∀ e ∈ es, Over S e) : ∀ e ∈ dropBounded g es, Over S e := by
  unfold dropBounded
  split
  · exact h
  · split
    · exact h
    · exact over_filter h _

theorem over_bringOut (h : ∀ e ∈ es, Over S e) :
    ∀ e ∈ bringOut g es, Over S e := by
  unfold bringOut
  simp only [List.partition_eq_filter_filter]
  split
  · exact h
  · rename_i s ss hs
    have hmembers : ∀ t ∈ s :: ss, ∀ e ∈ t, Over S e := by
      intro t ht
      rw [← hs] at ht
      obtain ⟨e, he, rfl⟩ := List.mem_map.mp ht
      exact over_extremeMembers (over_filter h _ e he)
    have hshared := over_filter (hmembers s List.mem_cons_self) fun e => ss.all fun t =>
      t.contains e
    split
    · exact h
    · refine over_append (over_filter h _) (List.forall_mem_singleton.mpr ?_)
      refine over_extremeChain (over_append hshared ?_)
      split
      · simp
      · refine List.forall_mem_singleton.mpr (over_extremeChain (over_map fun t ht => ?_))
        obtain ⟨u, hu, rfl⟩ := List.mem_map.mp ht
        exact over_extremeChain (over_filter (hmembers u hu) _)

theorem over_keepFarthest (he : Over S e) (h : ∀ k ∈ es, Over S k) :
    ∀ k ∈ keepFarthest g es e, Over S k := by
  unfold keepFarthest
  dsimp only
  split
  · exact over_append h (List.forall_mem_singleton.mpr he)
  · split
    · refine over_append (over_map fun j hj => ?_) (List.forall_mem_singleton.mpr he)
      obtain ⟨k, hk, rfl⟩ := List.mem_map.mp (List.mem_filter.mp hj).1
      exact h k hk
    · exact h

@[simp] theorem mem_sortByRank {rank : Expr → List Rat} : e ∈ sortByRank rank es ↔ e ∈ es := by
  have hperm : (sortByRank rank es).Perm es := by
    have h := (List.mergeSort_perm (es.map fun e => (rank e, e))
      fun a b => !rankLt b.1 a.1).map Prod.snd
    simpa [sortByRank, List.map_map, Function.comp_def] using h
  exact hperm.mem_iff

theorem over_farthest (h : ∀ e ∈ es, Over S e) : Over S (farthest g es) := by
  have hmembers : ∀ e ∈ sortByRank rankOf es.eraseDups, Over S e := by
    simpa using h
  have hreduced := over_absorbAll (g := g) (n := (sortByRank rankOf es.eraseDups).length)
    (over_dropBounded (g := g) hmembers)
  unfold farthest
  dsimp only
  refine over_extremeChain (List.foldlRecOn
    (motive := fun kept : List Expr => ∀ e ∈ kept, Over S e) _ _ (by simp)
    fun kept hkept e he => over_keepFarthest ?_ hkept)
  split at he
  · exact over_bringOut hreduced e he
  · exact hreduced e he

theorem over_decisive? (h : ∀ e ∈ es, Over S e) : OverOption S (decisive? g es) := by
  intro x hx
  obtain ⟨e, he, hx⟩ := List.exists_of_findSome?_eq_some hx
  split at hx
  · simp [← Option.some.inj hx]
  · split at hx
    · exact Option.some.inj hx ▸ h e he
    · simp at hx

@[simp] theorem over_extreme (h : ∀ e ∈ es, Over S e) :
    Over S (extreme g es) := by
  unfold extreme
  split
  · exact over_failed
  · split
    · exact (over_decisive? h).of_eq_some ‹_›
    · exact over_farthest (over_filter (over_flatMap fun e he => over_extremeMembers (h e he)) _)

end Formulary.Expr