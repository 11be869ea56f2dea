import Mathlib.Data.List.Nodup
import Formulary.Proofs.Text.Classes
import Formulary.Sheet.Parameter

/-! # Lists with keys

Both books of a sheet keep entries whose keys differ. Then an entry is found by
any of its keys, and changing it, adding one or leaving one out are maps, an
append and filters.

The ids among the keys end in the number of a counter. Saved entries are taken in
one by one, raising the counter above the number at the end of each id. Whatever
they are and wherever reading them stops, it stays above the numbers of all ids, so
the id it gives out next is a new one. Where every id ends in a number, saved
entries are taken in as they were.
-/

namespace Formulary

namespace Keyed

variable {α : Type} {key : α → Text} {a b : α} {l : List α}

/-- Puts a member in the place of the first one with its key, or at the end. -/
def place (key : α → Text) (a : α) : List α → List α
  | [] => [a]
  | b :: l => if key b = key a then a :: l else b :: place key a l

theorem place_of_not_mem (h : key a ∉ l.map key) : place key a l = l ++ [a] := by
  induction l with
  | nil => rfl
  | cons b l ih =>
    rw [List.map_cons, List.mem_cons, not_or] at h
    rw [place, if_neg (Ne.symm h.1), ih h.2, List.cons_append]

theorem place_of_mem (hn : (l.map key).Nodup) (h : key a ∈ l.map key) :
    place key a l = l.map fun b => if key b = key a then a else b := by
  induction l with
  | nil => simp at h
  | cons b l ih =>
    rw [List.map_cons, List.nodup_cons] at hn
    by_cases hb : key b = key a
    · have hrest : l.map (fun b => if key b = key a then a else b) = l := by
        refine (List.map_congr_left fun c hc => ?_).trans (List.map_id l)
        have hne : key c ≠ key a := fun he => hn.1 (hb ▸ he ▸ List.mem_map_of_mem hc)
        rw [if_neg hne, id]
      rw [place, if_pos hb, List.map_cons, if_pos hb, hrest]
    · have ha : key a ∈ l.map key := by simpa [Ne.symm hb] using h
      rw [place, if_neg hb, List.map_cons, if_neg hb, ih hn.2 ha]

/-- One entry at most has a given key. -/
theorem eq_of_key (hn : (l.map key).Nodup) (ha : a ∈ l) (hb : b ∈ l) (h : key a = key b) :
    a = b :=
  List.inj_on_of_nodup_map hn ha hb h

theorem find?_eq_some_iff {k : Text} (hn : (l.map key).Nodup) :
    (l.find? fun b => key b == k) = some a ↔ a ∈ l ∧ key a = k := by
  constructor
  · intro h
    exact ⟨List.mem_of_find?_eq_some h, by simpa using List.find?_some h⟩
  · rintro ⟨ha, rfl⟩
    cases hf : l.find? fun b => key b == key a with
    | none => simpa using List.find?_eq_none.mp hf a ha
    | some b =>
      have hb : key b = key a := by simpa using List.find?_some hf
      rw [eq_of_key hn (List.mem_of_find?_eq_some hf) ha hb]

theorem isSome_find?_iff {k : Text} :
    (l.find? fun b => key b == k).isSome = true ↔ k ∈ l.map key := by
  simp [List.find?_isSome]

/-- To leave out one key is to leave out the entry, so it does not matter which key is taken. -/
theorem filter_key_congr {key' : α → Text} (hn : (l.map key).Nodup) (hn' : (l.map key').Nodup)
    (ha : a ∈ l) :
    (l.filter fun b => key b != key a) = l.filter fun b => key' b != key' a := by
  apply List.filter_congr
  intro b hb
  have : key b = key a ↔ key' b = key' a :=
    ⟨fun h => by rw [eq_of_key hn hb ha h], fun h => by rw [eq_of_key hn' hb ha h]⟩
  rw [Bool.eq_iff_iff]
  simp [this]

theorem map_filter_key {k : Text} :
    (l.filter fun b => key b != k).map key = (l.map key).filter (· != k) := by
  rw [List.filter_map]
  rfl

end Keyed

/-! ### Ids and their counter -/

namespace SavedId

variable {n n' : Nat} {ids ids' : List Text}

/-- The number of an id is that of its spelling behind the last dash. -/
theorem counterAfter_append (pre : Text) (n : Nat) :
    counterAfter (pre ++ '-' :: Text.ofNat n) = .ok (n + 1) := by
  have hdash : ∀ c ∈ (Text.ofNat n).reverse, (c != '-') = true := by
    intro c hc
    have hdigit := Text.isAsciiDigit_of_mem_ofNat (List.mem_reverse.mp hc)
    rw [bne_iff_ne]
    rintro rfl
    exact absurd hdigit (by decide)
  have hstop : Text.Stops (· != '-') ('-' :: pre.reverse) := by simp [Text.Stops]
  have hsuffix : suffix (pre ++ '-' :: Text.ofNat n) = Text.ofNat n := by
    have hreverse : (pre ++ '-' :: Text.ofNat n).reverse =
        (Text.ofNat n).reverse ++ '-' :: pre.reverse := by simp
    rw [suffix, hreverse, Text.takeWhile_append_stop hdash hstop, List.reverse_reverse]
  have hdecimal : (Text.ofNat n).all Text.isDecimal = true :=
    List.all_eq_true.mpr fun _ => Text.isDecimal_of_mem_ofNat
  have hlike : (Text.ofNat n).all Text.isDigitLike = true :=
    List.all_eq_true.mpr fun c hc => by simp [Text.isDigitLike, Text.isDecimal_of_mem_ofNat hc]
  simp [counterAfter, hsuffix, hdecimal, hlike, Text.ofNat_ne_nil, Text.digitsValue_ofNat]

/-- The counter is above the number of each id that ends in one. -/
def Above (n : Nat) (ids : List Text) : Prop :=
  ∀ id ∈ ids, ∀ m, counterAfter id = .ok m → m ≤ n

theorem above_nil (n : Nat) : Above n [] := fun _ h => absurd h List.not_mem_nil

theorem Above.mono (h : Above n ids) (hids : ids' ⊆ ids) (hn : n ≤ n') : Above n' ids' :=
  fun id hid m hm => Nat.le_trans (h id (hids hid) m hm) hn

theorem Above.cons {id : Text} (h : Above n ids) (hid : ∀ m, counterAfter id = .ok m → m ≤ n) :
    Above n (id :: ids) :=
  List.forall_mem_cons.mpr ⟨hid, h⟩

/-- No id ends in the number that comes next. -/
theorem Above.not_mem (h : Above n ids) (pre : Text) : pre ++ '-' :: Text.ofNat n ∉ ids :=
  fun hin => Nat.not_succ_le_self n (h _ hin _ (counterAfter_append pre n))

/-- Distinct ids, each with a number that the counter is above. -/
structure Numbered (n : Nat) (ids : List Text) : Prop where
  nodup : ids.Nodup
  counted : ∀ id ∈ ids, ∃ m ≤ n, counterAfter id = .ok m

theorem numbered_nil (n : Nat) : Numbered n [] := ⟨List.nodup_nil, by simp⟩

theorem Numbered.above (h : Numbered n ids) : Above n ids := by
  intro id hid m hm
  obtain ⟨m', hm', hcount⟩ := h.counted id hid
  rw [hcount] at hm
  exact Except.ok.inj hm ▸ hm'

/-- What may happen to ids and counter while nothing is loaded: ids go away, or a new one comes
last, with a number that has been given out. -/
inductive Step (n : Nat) (ids : List Text) : Nat → List Text → Prop
  | drop {n' : Nat} {ids' : List Text} (hids : ids'.Sublist ids) (hn : n ≤ n') : Step n ids n' ids'
  | issue {n' k : Nat} (pre : Text) (hn : n ≤ n') (hk : k < n')
      (hnew : pre ++ '-' :: Text.ofNat k ∉ ids) :
      Step n ids n' (ids ++ [pre ++ '-' :: Text.ofNat k])

theorem Step.refl : Step n ids n ids := .drop (List.Sublist.refl ids) (Nat.le_refl n)

theorem Above.issue_next (h : Above n ids) (pre : Text) :
    Step n ids (n + 1) (ids ++ [pre ++ '-' :: Text.ofNat n]) :=
  .issue pre (Nat.le_succ n) (Nat.lt_succ_self n) (h.not_mem pre)

theorem Above.step (h : Above n ids) (hs : Step n ids n' ids') : Above n' ids' := by
  cases hs with
  | drop hids hn => exact h.mono hids.subset hn
  | issue pre hn hk =>
    intro id hid m hm
    rcases List.mem_append.mp hid with hid | hid
    · exact Nat.le_trans (h id hid m hm) hn
    · rw [List.mem_singleton.mp hid, counterAfter_append] at hm
      exact Except.ok.inj hm ▸ hk

theorem Numbered.step (h : Numbered n ids) (hs : Step n ids n' ids') : Numbered n' ids' := by
  cases hs with
  | drop hids hn =>
    refine ⟨h.nodup.sublist hids, fun id hid => ?_⟩
    obtain ⟨m, hm, hcount⟩ := h.counted id (hids.mem hid)
    exact ⟨m, Nat.le_trans hm hn, hcount⟩
  | @issue k pre hn hk hnew =>
    refine ⟨?_, fun id hid => ?_⟩
    · rw [List.nodup_append_comm, List.singleton_append, List.nodup_cons]
      exact ⟨hnew, h.nodup⟩
    · rcases List.mem_append.mp hid with hid | hid
      · obtain ⟨m, hm, hcount⟩ := h.counted id hid
        exact ⟨m, Nat.le_trans hm hn, hcount⟩
      · exact ⟨k + 1, hk, List.mem_singleton.mp hid ▸ counterAfter_append pre k⟩

end SavedId

/-! ### Entries taken in -/

namespace Keyed

variable {α : Type} {key : α → Text} {read : Json → Option α} {a : α} {l as : List α} {n : Nat}

/-- In its own place an entry keeps the keys as they are. -/
theorem map_place_of_mem (h : key a ∈ l.map key) : (place key a l).map key = l.map key := by
  induction l with
  | nil => simp at h
  | cons b l ih =>
    rw [place]
    split
    case isTrue hb => rw [List.map_cons, List.map_cons, hb]
    case isFalse hb =>
      have ha : key a ∈ l.map key := by simpa [Ne.symm hb] using h
      rw [List.map_cons, List.map_cons, ih ha]

theorem map_place_subset : (place key a l).map key ⊆ key a :: l.map key := by
  by_cases h : key a ∈ l.map key
  · rw [map_place_of_mem h]
    exact List.subset_cons_self _ _
  · rw [place_of_not_mem h]
    simp

/-- The entries and the counter after reading saved entries up to the first that has a fault. -/
def takeIn (key : α → Text) (read : Json → Option α) (l : List α) (n : Nat) :
    List Json → List α × Nat × Option LoadError
  | [] => (l, n, none)
  | j :: rest =>
    match read j with
    | none => (l, n, some .badEntry)
    | some a =>
      match SavedId.counterAfter (key a) with
      | .error e => (place key a l, n, some e)
      | .ok m => takeIn key read (place key a l) (max n m) rest

/-- An id without a number, or with one that cannot be read, asks nothing of the counter. -/
theorem above_takeIn (h : SavedId.Above n (l.map key)) (items : List Json) :
    SavedId.Above (takeIn key read l n items).2.1 ((takeIn key read l n items).1.map key) := by
  induction items generalizing l n with
  | nil => exact h
  | cons j rest ih =>
    rw [takeIn]
    cases read j with
    | none => exact h
    | some a =>
      dsimp only
      cases hcount : SavedId.counterAfter (key a) with
      | error e =>
        have ha : ∀ m, SavedId.counterAfter (key a) = .ok m → m ≤ n := by simp [hcount]
        exact (h.cons ha).mono map_place_subset (Nat.le_refl n)
      | ok m =>
        have ha : ∀ m', SavedId.counterAfter (key a) = .ok m' → m' ≤ max n m := by
          rintro m' hm'
          rw [hcount] at hm'
          exact Except.ok.inj hm' ▸ Nat.le_max_right n m
        have hraised := h.mono (List.Subset.refl _) (Nat.le_max_left n m)
        exact ih ((hraised.cons ha).mono map_place_subset (Nat.le_refl _))

/-- Entries with distinct ids that end in numbers are taken in as they were written. -/
theorem takeIn_write {write : α → Json} {limit : Nat} (hread : ∀ a, read (write a) = some a)
    (hids : ((l ++ as).map key).Nodup)
    (hcount : ∀ a ∈ as, ∃ m ≤ limit, SavedId.counterAfter (key a) = .ok m) (hlimit : n ≤ limit) :
    ∃ m ≤ limit, n ≤ m ∧ takeIn key read l n (as.map write) = (l ++ as, m, none) := by
  induction as generalizing l n with
  | nil => exact ⟨n, hlimit, Nat.le_refl n, by simp [takeIn]⟩
  | cons a as ih =>
    obtain ⟨⟨k, hk, hcounta⟩, hcount⟩ := List.forall_mem_cons.mp hcount
    have hnew : key a ∉ l.map key := fun hin => by
      rw [List.map_append, List.map_cons] at hids
      exact List.disjoint_of_nodup_append hids hin List.mem_cons_self
    obtain ⟨m, hm, hle, htake⟩ :=
      @ih (l ++ [a]) (max n k) (by simpa using hids) hcount (Nat.max_le.mpr ⟨hlimit, hk⟩)
    refine ⟨m, hm, Nat.le_trans (Nat.le_max_left n k) hle, ?_⟩
    rw [List.map_cons, takeIn, hread]
    dsimp only
    rw [hcounta]
    dsimp only
    rw [place_of_not_mem hnew, htake, List.append_assoc, List.singleton_append]

/-- What one counter has numbered, another takes in, and is ahead of it then. -/
theorem takeIn_write_numbered {write : α → Json} (hread : ∀ a, read (write a) = some a)
    {limit : Nat} (h : SavedId.Numbered limit (as.map key)) (n : Nat) :
    ∃ m, SavedId.Numbered m (as.map key) ∧
      takeIn key read [] n (as.map write) = (as, m, none) := by
  have hcount : ∀ a ∈ as, ∃ m ≤ max n limit, SavedId.counterAfter (key a) = .ok m := fun a ha => by
    obtain ⟨m, hm, hcount⟩ := h.counted (key a) (List.mem_map_of_mem ha)
    exact ⟨m, Nat.le_trans hm (Nat.le_max_right n limit), hcount⟩
  obtain ⟨m, -, -, htake⟩ :=
    takeIn_write (l := []) hread h.nodup hcount (Nat.le_max_left n limit)
  have habove : SavedId.Above (takeIn key read [] n (as.map write)).2.1
      ((takeIn key read [] n (as.map write)).1.map key) :=
    above_takeIn (SavedId.above_nil n) (as.map write)
  rw [htake] at habove
  refine ⟨m, ⟨h.nodup, fun id hid => ?_⟩, htake⟩
  obtain ⟨k, -, hcount⟩ := h.counted id hid
  exact ⟨k, habove id hid k hcount, hcount⟩

end Keyed

end Formulary
