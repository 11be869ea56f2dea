import Mathlib.Data.List.InsertIdx
import Formulary.Calc.Arithmetic
import Formulary.Proofs.Calc.Value
import Formulary.Proofs.Eval.Lawful
import Formulary.Proofs.Text.Distinct

/-! # The calculator is lawful

Numbers are put in one after another, in an order that depends on the identifiers and
on which numbers are infinite, but not on how they are arranged. A number that belongs to
another symbol may so be exchanged or left out.
-/

namespace Formulary.Calculator

variable {values values' : List (Text × Scalar)} {f : Text × Scalar → Text × Scalar}
  {keep : Text × Scalar → Bool} {id : Text} {x : Double} {e : Expr} {v : Value}

/-! ### The order in which numbers are put in -/

/-- The number is infinite, or undefined. -/
def isInfinite (x : Text × Scalar) : Bool := !x.2.isFinite

theorem map_toFront (values : List (Text × Scalar)) (place : Nat) :
    toFront (values.map f) place = (toFront values place).map f := by
  cases h : values[place]? <;> simp [toFront, List.eraseIdx_map, h]

theorem infinitePlaces_map (hf : ∀ p ∈ values, (f p).2.isFinite = p.2.isFinite) :
    infinitePlaces (values.map f) = infinitePlaces values := by
  unfold infinitePlaces
  rw [List.length_map]
  congr 1
  apply List.filter_congr
  intro i _
  rw [List.getElem?_map]
  cases h : values[i]? with
  | none => rfl
  | some p => simp [hf p (List.mem_of_getElem? h)]

/-- Numbers that stay in place, and finite or infinite, come in the same turn. -/
theorem inTurn_map (hle : ∀ p ∈ values, ∀ q ∈ values, Text.le p.1 q.1 = Text.le (f p).1 (f q).1)
    (hf : ∀ p ∈ values, (f p).2.isFinite = p.2.isFinite) :
    inTurn (values.map f) = (inTurn values).map f := by
  have hsort : (values.map f).mergeSort (fun a b => Text.le a.1 b.1) =
      (values.mergeSort fun a b => Text.le a.1 b.1).map f :=
    (List.map_mergeSort (s := fun a b : Text × Scalar => Text.le a.1 b.1) hle).symm
  have hfronts (places : List Nat) (l : List (Text × Scalar)) :
      places.foldl toFront (l.map f) = (places.foldl toFront l).map f := by
    induction places generalizing l with
    | nil => rfl
    | cons place places ih => rw [List.foldl_cons, map_toFront, ih, List.foldl_cons]
  unfold inTurn
  dsimp only
  rw [hsort, infinitePlaces_map fun p hp => hf p (List.mem_mergeSort.mp hp), hfronts]

theorem inTurn_perm (hperm : values.Perm values') (hids : (values.map Prod.fst).Nodup) :
    inTurn values = inTurn values' := by
  unfold inTurn
  rw [Text.mergeSort_eq_of_perm hperm hids]

theorem infinitePlaces_of_finite (h : ∀ x ∈ values, isInfinite x = false) :
    infinitePlaces values = [] := by
  rw [infinitePlaces, List.reverse_eq_nil_iff, List.filter_eq_nil_iff]
  intro i _ hany
  cases hx : values[i]? with
  | none => simp [hx] at hany
  | some x =>
    have hfinite : (!x.2.isFinite) = false := h x (List.mem_of_getElem? hx)
    simp [hx, hfinite] at hany

theorem infinitePlaces_append {x : Text × Scalar} {us vs : List (Text × Scalar)}
    (hx : isInfinite x = true) (hus : ∀ u ∈ us, isInfinite u = false)
    (hvs : ∀ v ∈ vs, isInfinite v = false) : infinitePlaces (us ++ x :: vs) = [us.length] := by
  have hplace (i : Nat) : ((us ++ x :: vs)[i]?.any isInfinite) = (i == us.length) := by
    rcases Nat.lt_trichotomy i us.length with hi | rfl | hi
    · rw [List.getElem?_append_left hi, List.getElem?_eq_getElem hi, Option.any_some,
        hus _ (List.getElem_mem hi), beq_false_of_ne (Nat.ne_of_lt hi)]
    · rw [List.getElem?_append_right (Nat.le_refl _), Nat.sub_self, List.getElem?_cons_zero,
        Option.any_some, hx, beq_self_eq_true]
    · rw [beq_false_of_ne (Nat.ne_of_gt hi), List.getElem?_append_right (Nat.le_of_lt hi),
        List.getElem?_cons, if_neg (by omega)]
      cases hv : vs[i - us.length - 1]? with
      | none => rfl
      | some v => exact hvs v (List.mem_of_getElem? hv)
  have hone : us.length ∈ List.range (us ++ x :: vs).length := List.mem_range.mpr (by simp)
  have hfilter : ((List.range (us ++ x :: vs).length).filter fun i =>
      (us ++ x :: vs)[i]?.any isInfinite) = [us.length] := by
    simp only [hplace]
    rw [List.filter_beq, List.count_eq_one_of_mem List.nodup_range hone]
    rfl
  exact congrArg List.reverse hfilter

/-- If at most one number is infinite, it comes first. -/
theorem inTurn_eq_append (h : values.countP isInfinite ≤ 1) :
    inTurn values = (values.mergeSort fun x y => Text.le x.1 y.1).filter isInfinite ++
      (values.mergeSort fun x y => Text.le x.1 y.1).filter fun x => !isInfinite x := by
  rw [← (List.mergeSort_perm values fun x y => Text.le x.1 y.1).countP_eq] at h
  unfold inTurn
  dsimp only
  generalize values.mergeSort (fun x y => Text.le x.1 y.1) = sorted at h
  by_cases hany : ∃ x ∈ sorted, isInfinite x = true
  · obtain ⟨x, hin, hx⟩ := hany
    obtain ⟨us, vs, rfl⟩ := List.append_of_mem hin
    rw [List.countP_append, List.countP_cons_of_pos hx] at h
    have hus : ∀ u ∈ us, isInfinite u = false := by
      simpa using List.countP_eq_zero.mp (by omega : us.countP isInfinite = 0)
    have hvs : ∀ v ∈ vs, isInfinite v = false := by
      simpa using List.countP_eq_zero.mp (by omega : vs.countP isInfinite = 0)
    rw [infinitePlaces_append hx hus hvs]
    have husn : us.filter isInfinite = [] := by simpa using hus
    have hvsn : vs.filter isInfinite = [] := by simpa using hvs
    have husa : us.filter (fun x => !isInfinite x) = us := by simpa using hus
    have hvsa : vs.filter (fun x => !isInfinite x) = vs := by simpa using hvs
    simp [toFront, husn, hvsn, husa, hvsa, hx, List.eraseIdx_append_of_length_le]
  · have hfinite : ∀ x ∈ sorted, isInfinite x = false := by simpa using hany
    have hnone : sorted.filter isInfinite = [] := by simpa using hfinite
    have hall : sorted.filter (fun x => !isInfinite x) = sorted := by simpa using hfinite
    rw [infinitePlaces_of_finite hfinite, hnone, hall]
    rfl

/-- If at most one number is infinite, others come in their turn whatever is left out. -/
theorem inTurn_filter (h : values.countP isInfinite ≤ 1) (hids : (values.map Prod.fst).Nodup) :
    inTurn (values.filter keep) = (inTurn values).filter keep := by
  have hcount : (values.filter keep).countP isInfinite ≤ 1 :=
    Nat.le_trans List.filter_sublist.countP_le h
  rw [inTurn_eq_append h, inTurn_eq_append hcount, Text.mergeSort_filter keep hids,
    List.filter_append, List.filter_comm keep, List.filter_comm keep]

/-! ### Numbers for other symbols -/

/-- Numbers are put in alike for the symbols of the expression. -/
def PutsAlike (values values' : List (Text × Scalar)) (ids : List Text) : Prop :=
  ∀ e : Expr, e.symbols ⊆ ids → putAll values e = putAll values' e

theorem substitute_congr (h : PutsAlike values values' v.symbols) :
    substitute values v = substitute values' v := by
  cases v with
  | expr e => exact congrArg (fun e => (settled e).map Value.expr) (h e (List.Subset.refl _))
  | relation c a b =>
    have ha := h a (List.subset_append_left _ _)
    have hb := h b (List.subset_append_right _ _)
    simp only [substitute, ha, hb]
  | formal f e => cases f <;> rfl
  | _ => rfl

theorem symbols_put_subset {s : Scalar} {ids : List Text} (h : e.symbols ⊆ ids) :
    (e.put id s).symbols ⊆ ids :=
  fun _ hk => h (Expr.symbols_put hk).1

/-- The number for an identifier, changed at one. -/
def exchange (id : Text) (s : Scalar) (p : Text × Scalar) : Text × Scalar :=
  if p.1 = id then (id, s) else p

theorem exchange_fst {s : Scalar} (p : Text × Scalar) : (exchange id s p).1 = p.1 := by
  unfold exchange
  split
  · exact ‹p.1 = id›.symm
  · rfl

theorem putsAlike_exchange {ids : List Text} {s : Scalar} (hid : id ∉ ids) :
    PutsAlike (values.map (exchange id s)) values ids := by
  intro e he
  induction values generalizing e with
  | nil => rfl
  | cons p values ih =>
    have hfirst : e.put (exchange id s p).1 (exchange id s p).2 = e.put p.1 p.2 := by
      by_cases hp : p.1 = id
      · have hnot : id ∉ e.symbols := fun hin => hid (he hin)
        rw [exchange, if_pos hp, hp, Expr.put_of_not_mem hnot, Expr.put_of_not_mem hnot]
      · rw [exchange, if_neg hp]
    show putAll (values.map (exchange id s)) (e.put (exchange id s p).1 (exchange id s p).2) =
      putAll values (e.put p.1 p.2)
    rw [hfirst, ih _ (symbols_put_subset he)]

theorem putsAlike_filter {ids : List Text} (hkeep : ∀ p ∈ values, keep p = false → p.1 ∉ ids) :
    PutsAlike (values.filter keep) values ids := by
  intro e he
  induction values generalizing e with
  | nil => rfl
  | cons p values ih =>
    rw [List.forall_mem_cons] at hkeep
    cases hp : keep p with
    | true =>
      rw [List.filter_cons_of_pos hp]
      exact ih hkeep.2 _ (symbols_put_subset he)
    | false =>
      rw [List.filter_cons_of_neg (by simp [hp]), ih hkeep.2 _ he]
      show putAll values e = putAll values (e.put p.1 p.2)
      rw [Expr.put_of_not_mem fun hin => hkeep.1 hp (he hin)]

/-! ### Numbers as doubles -/

/-- The numbers that doubles stand for. -/
def scalars (scope : Scope) : List (Text × Scalar) := scope.map fun p => (p.1, .ofDouble p.2)

theorem isFinite_ofDouble : (Scalar.ofDouble x).isFinite = x.isFinite := by
  cases x <;> rfl

theorem keys_scalars (scope : Scope) : (scalars scope).map Prod.fst = scope.map Prod.fst := by
  rw [scalars, List.map_map]
  rfl

theorem countP_scalars (scope : Scope) : (scalars scope).countP isInfinite = scope.infinites := by
  rw [scalars, List.countP_map, Scope.infinites]
  congr 1
  funext p
  simp only [Function.comp_apply, isInfinite, isFinite_ofDouble]

theorem scalars_withValue (scope : Scope) (id : Text) (x : Double) :
    scalars (scope.withValue id x) = (scalars scope).map (exchange id (.ofDouble x)) := by
  rw [scalars, Scope.withValue, List.map_map, scalars, List.map_map]
  apply List.map_congr_left
  intro p _
  by_cases hp : p.1 = id <;> simp [exchange, hp]

theorem scalars_filter (scope : Scope) (id : Text) :
    scalars (scope.filter (·.1 != id)) = (scalars scope).filter (·.1 != id) := by
  rw [scalars, scalars, List.filter_map]
  rfl

/-! ### The laws -/

/-- A name stands for a symbol only if it has no meaning, and then for itself. -/
theorem eq_of_mem_symbols_ofName {n : Text} (h : id ∈ (Value.ofName n).symbols) :
    id = n ∧ ¬ IsBuiltin n := by
  have hconstants : ∀ n ∈ [text "pi", text "E", text "I"], (namedConstant? n).isSome = true := by
    decide +kernel
  unfold Value.ofName at h
  cases hn : namedConstant? n with
  | some e =>
    rw [hn] at h
    have hover := Value.over_namedConstant? (S := fun _ => False) hn
    exact (Expr.over_iff.mp hover id h).elim
  | none =>
    rw [hn] at h
    dsimp only at h
    split at h
    · cases h
    · rename_i hfunction
      refine ⟨List.mem_singleton.mp h, ?_⟩
      rintro (hfunction' | hconstant)
      · exact hfunction hfunction'
      · simpa [hn] using hconstants n hconstant

instance : LawfulArithmetic where
  symbols_read {s t id v} _ h hid := by
    obtain ⟨term, hterm, w, hw, hsingle⟩ : ∃ term, Term.ofText? t = some term ∧
        ∃ w, Value.ofTerm s term = .ok w ∧ (if isSingle w then some w else none) = some v := by
      change read s t = _ at h
      unfold read at h
      split at h
      · cases h
      · obtain ⟨w, hw, hsingle⟩ := ok_of_map (ok_of_mapError h)
        exact ⟨_, ‹_›, w, hw, hsingle⟩
    obtain rfl : w = v := by
      split at hsingle
      · exact Option.some.inj hsingle
      · cases hsingle
    let S (id : Text) : Prop :=
      (¬ IsBuiltin id ∧ Text.IsName id ∧ ∃ after, Text.WordIn id after t ∧ ¬ Formula.Leads after) ∨
        ∃ r ∈ s.routines, id ∈ Arithmetic.free r.2
    have hroutines : s.RoutinesOver S := by
      intro r hr
      refine Value.isOver_iff.mpr fun id hid hformal => Or.inr ⟨r, hr, ?_⟩
      exact List.mem_filter.mpr ⟨hid, by simpa using hformal⟩
    have hnames : Value.NamesOver S term.names := by
      intro n hn
      refine Value.isOver_iff.mpr fun id hid => ?_
      obtain ⟨rfl, hbuiltin⟩ := eq_of_mem_symbols_ofName hid
      exact Or.inl ⟨hbuiltin, Term.wordIn_of_ofText? hterm hn⟩
    have hover := Value.overResult_ofTerm hroutines term hnames
    rw [hw] at hover
    exact Value.isOver_iff.mp hover id hid
  free_routine {formals id v r} h hid := by
    obtain rfl : ⟨formals, v⟩ = r := by
      have h := ok_of_mapError h
      unfold routine at h
      split at h
      · exact Except.ok.inj h
      · cases h
    obtain ⟨hin, hformal⟩ := List.mem_filter.mp hid
    exact ⟨hin, by simpa using hformal⟩
  substitute_withValue {v scope id x} hid hx hscope := by
    have hfinite : ∀ p ∈ scalars scope,
        (exchange id (.ofDouble x) p).2.isFinite = p.2.isFinite := by
      refine List.forall_mem_map.mpr fun p hp => ?_
      by_cases hname : p.1 = id
      · simp [exchange, hname, isFinite_ofDouble, hx, hscope p.2 (hname ▸ hp)]
      · simp [exchange, hname]
    have hturn := inTurn_map (fun _ _ _ _ => by rw [exchange_fst, exchange_fst]) hfinite
    show (substitute (inTurn (scalars _)) v).mapError _ =
      (substitute (inTurn (scalars scope)) v).mapError _
    rw [scalars_withValue, hturn, substitute_congr (putsAlike_exchange hid)]
  substitute_perm {v scope scope'} hperm hkeyed := by
    have hids : ((scalars scope).map Prod.fst).Nodup := by
      rw [keys_scalars]
      exact hkeyed
    have hturn : inTurn (scalars scope) = inTurn (scalars scope') :=
      inTurn_perm (hperm.map _) hids
    exact congrArg (fun values => (substitute values v).mapError Fault.failure) hturn
  substitute_without {v scope id} hid hkeyed hone := by
    have hids : ((scalars scope).map Prod.fst).Nodup := by
      rw [keys_scalars]
      exact hkeyed
    have hturn : inTurn ((scalars scope).filter (·.1 != id)) = _ :=
      inTurn_filter (by rwa [countP_scalars]) hids
    have hputs : PutsAlike ((inTurn (scalars scope)).filter (·.1 != id)) (inTurn (scalars scope))
        v.symbols := by
      refine putsAlike_filter fun p _ hp => ?_
      rw [bne_eq_false_iff_eq.mp hp]
      exact hid
    show (substitute (inTurn (scalars _)) v).mapError _ =
      (substitute (inTurn (scalars scope)) v).mapError _
    rw [scalars_filter, hturn, substitute_congr hputs]

end Formulary.Calculator
