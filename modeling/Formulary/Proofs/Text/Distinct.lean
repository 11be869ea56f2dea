import Mathlib.Data.List.Basic
import Mathlib.Data.List.Nodup
import Mathlib.Data.List.Sort
import Formulary.Text.Basic

/-! # Distinct texts and their order

Keeping each member once loses none, and different numbers have different decimal
spellings.

Texts are compared character by character, by code points, and a text stands behind
its prefixes. This is a linear order, so what is sorted by distinct texts comes out
the same however it was arranged.
-/

namespace Formulary.Text

variable {a b c t : Text} {ts : List Text}

theorem foldl_dedup {seen : List Text} (h : seen.Nodup) :
    (ts.foldl (fun seen t => if seen.contains t then seen else seen ++ [t]) seen).Nodup ∧
      ∀ t, t ∈ ts.foldl (fun seen t => if seen.contains t then seen else seen ++ [t]) seen ↔
        t ∈ seen ∨ t ∈ ts := by
  induction ts generalizing seen with
  | nil => simpa using h
  | cons u ts ih =>
    rw [List.foldl_cons]
    by_cases hu : u ∈ seen
    · rw [if_pos (List.contains_iff_mem.mpr hu)]
      refine ⟨(ih h).1, fun t => ?_⟩
      rw [(ih h).2, List.mem_cons]
      constructor
      · tauto
      · rintro (ht | rfl | ht)
        · exact Or.inl ht
        · exact Or.inl hu
        · exact Or.inr ht
    · rw [if_neg (by simpa using hu)]
      have h' : (seen ++ [u]).Nodup := by
        rw [List.nodup_append_comm]
        simpa using ⟨hu, h⟩
      refine ⟨(ih h').1, fun t => ?_⟩
      rw [(ih h').2]
      simp [or_assoc]

theorem nodup_dedup (ts : List Text) : (dedup ts).Nodup := (foldl_dedup List.nodup_nil).1

@[simp] theorem mem_dedup : t ∈ dedup ts ↔ t ∈ ts := by
  simpa [dedup] using (foldl_dedup List.nodup_nil).2 t

/-- Distinct members are kept as they are. -/
theorem foldl_dedup_of_nodup {seen : List Text} (h : (seen ++ ts).Nodup) :
    ts.foldl (fun seen t => if seen.contains t then seen else seen ++ [t]) seen = seen ++ ts := by
  induction ts generalizing seen with
  | nil => simp
  | cons u ts ih =>
    have hu : u ∉ seen := fun hu => List.disjoint_of_nodup_append h hu List.mem_cons_self
    have hrest : ((seen ++ [u]) ++ ts).Nodup := by simpa using h
    rw [List.foldl_cons, if_neg (by simpa using hu), ih hrest]
    simp

theorem dedup_of_nodup (h : ts.Nodup) : dedup ts = ts := by
  have hall : (([] : List Text) ++ ts).Nodup := by simpa using h
  exact (foldl_dedup_of_nodup hall).trans (List.nil_append ts)

theorem foldl_dedup_eq {seen : List Text} :
    ts.foldl (fun seen t => if seen.contains t then seen else seen ++ [t]) seen =
      seen ++ (ts.filter fun t => !seen.contains t).eraseDups := by
  induction ts generalizing seen with
  | nil => simp
  | cons u ts ih =>
    rw [List.foldl_cons, ih]
    by_cases hu : seen.contains u = true
    · rw [if_pos hu, List.filter_cons_of_neg (by simpa using hu)]
    · rw [if_neg hu, List.filter_cons_of_pos (by simpa using hu), List.eraseDups_cons,
        List.filter_filter, List.append_assoc, List.singleton_append]
      congr 3
      exact List.filter_congr fun t _ => by simp [Bool.and_comm, Bool.beq_eq_decide_eq]

theorem dedup_eq_eraseDups (ts : List Text) : dedup ts = ts.eraseDups := by
  rw [dedup, foldl_dedup_eq]
  simp

/-- Whether a member is kept once before or after the others are dropped makes no difference. -/
theorem eraseDups_filter (p : Text → Bool) (ts : List Text) :
    (ts.filter p).eraseDups = ts.eraseDups.filter p := by
  induction hn : ts.length using Nat.strongRecOn generalizing ts with
  | _ n ih =>
    subst hn
    cases ts with
    | nil => rfl
    | cons u ts =>
      have hshorter : (ts.filter fun t => !t == u).length < (u :: ts).length :=
        Nat.lt_succ_of_le (List.length_filter_le _ _)
      rw [List.eraseDups_cons, List.filter_cons, List.filter_cons,
        ← ih _ hshorter _ rfl, List.filter_filter]
      by_cases hu : p u = true
      · rw [if_pos hu, if_pos hu, List.eraseDups_cons, List.filter_filter]
        simp only [Bool.and_comm]
      · rw [if_neg hu, if_neg hu]
        congr 1
        refine List.filter_congr fun t _ => ?_
        by_cases ht : t = u
        · simp [ht, hu]
        · simp [ht]

theorem ofNat_inj {m n : Nat} : ofNat m = ofNat n ↔ m = n := by
  refine ⟨fun h => ?_, fun h => by rw [h]⟩
  calc m = Nat.ofDigitChars 10 (ofNat m) 0 := Nat.ofDigitChars_ten_toDigits.symm
    _ = Nat.ofDigitChars 10 (ofNat n) 0 := by rw [h]
    _ = n := Nat.ofDigitChars_ten_toDigits

/-! ### The order -/

theorem le_cons {x y : Char} :
    le (x :: a) (y :: b) = true ↔ x.toNat < y.toNat ∨ x = y ∧ le a b = true := by
  simp [le, Char.toNat_inj]

theorem le_total (a b : Text) : le a b = true ∨ le b a = true := by
  induction a generalizing b with
  | nil => exact Or.inl rfl
  | cons x a ih =>
    cases b with
    | nil => exact Or.inr rfl
    | cons y b =>
      rw [le_cons, le_cons]
      rcases Nat.lt_trichotomy x.toNat y.toNat with h | h | h
      · exact Or.inl (Or.inl h)
      · obtain rfl := Char.toNat_inj.mp h
        exact (ih b).imp (fun h => Or.inr ⟨rfl, h⟩) fun h => Or.inr ⟨rfl, h⟩
      · exact Or.inr (Or.inl h)

theorem le_antisymm (hab : le a b = true) (hba : le b a = true) : a = b := by
  induction a generalizing b with
  | nil =>
    cases b with
    | nil => rfl
    | cons y b => simp [le] at hba
  | cons x a ih =>
    cases b with
    | nil => simp [le] at hab
    | cons y b =>
      rw [le_cons] at hab hba
      rcases hab with h | ⟨rfl, hab⟩
      · rcases hba with h' | ⟨rfl, -⟩ <;> omega
      · rcases hba with h | ⟨-, hba⟩
        · omega
        · rw [ih hab hba]

theorem le_trans (hab : le a b = true) (hbc : le b c = true) : le a c = true := by
  induction a generalizing b c with
  | nil => rfl
  | cons x a ih =>
    cases b with
    | nil => simp [le] at hab
    | cons y b =>
      cases c with
      | nil => simp [le] at hbc
      | cons z c =>
        rw [le_cons] at *
        rcases hab with h | ⟨rfl, hab⟩
        · rcases hbc with h' | ⟨rfl, -⟩
          · exact Or.inl (by omega)
          · exact Or.inl h
        · exact hbc.imp_right fun ⟨hxz, hbc⟩ => ⟨hxz, ih hab hbc⟩

section Keys

variable {α : Type} {key : α → Text} {l l' : List α}

theorem pairwise_mergeSort (l : List α) :
    (l.mergeSort fun x y => le (key x) (key y)).Pairwise fun x y => le (key x) (key y) = true := by
  have htrans (x y z : α) (hxy : le (key x) (key y) = true) (hyz : le (key y) (key z) = true) :
      le (key x) (key z) = true := le_trans hxy hyz
  have htotal (x y : α) : (le (key x) (key y) || le (key y) (key x)) = true := by
    simpa using le_total (key x) (key y)
  exact List.pairwise_mergeSort htrans htotal l

/-- Sorted by distinct keys, members come out the same however they were arranged. -/
theorem mergeSort_eq_of_perm (hp : l.Perm l') (hkeys : (l.map key).Nodup) :
    l.mergeSort (fun x y => le (key x) (key y)) = l'.mergeSort fun x y => le (key x) (key y) := by
  have hperm := ((List.mergeSort_perm l fun x y => le (key x) (key y)).trans hp).trans
    (List.mergeSort_perm l' fun x y => le (key x) (key y)).symm
  refine hperm.eq_of_pairwise (fun x y hx hy hxy hyx => ?_)
    (pairwise_mergeSort l) (pairwise_mergeSort l')
  have hx := List.mem_mergeSort.mp hx
  have hy := hp.mem_iff.mpr (List.mem_mergeSort.mp hy)
  exact List.inj_on_of_nodup_map hkeys hx hy (le_antisymm hxy hyx)

/-- Whether members are left out before or after sorting by distinct keys makes no difference. -/
theorem mergeSort_filter (keep : α → Bool) (hkeys : (l.map key).Nodup) :
    (l.filter keep).mergeSort (fun x y => le (key x) (key y)) =
      (l.mergeSort fun x y => le (key x) (key y)).filter keep := by
  have hperm := (List.mergeSort_perm l fun x y => le (key x) (key y)).symm.filter keep
  have hsub : ((l.filter keep).map key).Nodup := hkeys.sublist (List.filter_sublist.map key)
  rw [mergeSort_eq_of_perm hperm hsub]
  exact List.mergeSort_of_pairwise ((pairwise_mergeSort l).filter keep)

end Keys

end Formulary.Text
