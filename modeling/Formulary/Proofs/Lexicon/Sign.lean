import Formulary.Assignment
import Formulary.Proofs.Text.Classes

/-! # The search for the equals sign

Most characters only move the search on by one place. Whether a sign is found depends
on the equals signs, the brackets and what stands right before and behind a sign; so
two texts that differ elsewhere have a sign in the same cases.
-/

namespace Formulary.Assignment

variable {t w v x y z : Text} {c : Char} {k i n : Nat} {prev prev' : Option Char}

/-! ### Characters passed by -/

/-- No bracket, no equals sign and no part of one. -/
def IsQuiet (c : Char) : Prop :=
  Bracket.isOpening c = false ∧ Bracket.isClosing c = false ∧ c ≠ '=' ∧
    joinsEquals (some c) = false

instance : DecidablePred IsQuiet := fun c =>
  inferInstanceAs (Decidable (Bracket.isOpening c = false ∧ Bracket.isClosing c = false ∧ c ≠ '=' ∧
    joinsEquals (some c) = false))

theorem isQuiet_of_class {p : Char → Bool}
    (hp : ['(', ')', '[', ']', '\x7b', '\x7d', '=', '<', '>', '!'].any p = false)
    (hc : p c = true) : IsQuiet c := by
  have hne : ∀ d ∈ ['(', ')', '[', ']', '\x7b', '\x7d', '=', '<', '>', '!'], c ≠ d := by
    rintro d hd rfl
    exact List.any_eq_false.mp hp c hd hc
  simp_all [IsQuiet, Bracket.isOpening, Bracket.isClosing, joinsEquals]

theorem findFrom_congr (h : joinsEquals prev = joinsEquals prev') :
    findFrom prev k i t = findFrom prev' k i t := by
  cases t with
  | nil => rfl
  | cons c t => simp only [findFrom, h]

theorem findFrom_cons (hc : IsQuiet c) :
    findFrom prev k i (c :: t) = findFrom none k (i + 1) t := by
  obtain ⟨ho, hclose, he, hj⟩ := hc
  have heq : (c == '=') = false := beq_eq_false_iff_ne.mpr he
  have hprev : joinsEquals (some c) = joinsEquals none := hj
  rw [findFrom, if_neg (by simp [ho]), if_neg (by simp [hclose]), if_neg (by simp [heq]),
    findFrom_congr hprev]

theorem findFrom_quiet (hw : ∀ c ∈ w, IsQuiet c) :
    findFrom none k i (w ++ t) = findFrom none k (i + w.length) t := by
  induction w generalizing i with
  | nil => rfl
  | cons c w ih =>
    obtain ⟨hc, hw⟩ := List.forall_mem_cons.mp hw
    rw [List.cons_append, findFrom_cons hc, ih hw, List.length_cons, Nat.add_assoc, Nat.add_comm 1]

/-- The sign that is found splits the text. -/
theorem exists_of_findFrom (h : findFrom prev k i t = some n) :
    ∃ l r, t = l ++ '=' :: r ∧ n = i + l.length := by
  induction t generalizing prev k i with
  | nil => simp [findFrom] at h
  | cons c t ih =>
    have hlater : ∀ {prev k}, findFrom prev k (i + 1) t = some n →
        ∃ l r, c :: t = l ++ '=' :: r ∧ n = i + l.length := by
      intro prev k h
      obtain ⟨l, r, rfl, rfl⟩ := ih h
      exact ⟨c :: l, r, rfl, by rw [List.length_cons]; omega⟩
    unfold findFrom at h
    split at h
    · exact hlater h
    · split at h
      · exact hlater h
      · split at h
        case isTrue hsign =>
          simp only [Bool.and_eq_true, beq_iff_eq] at hsign
          obtain rfl := Option.some.inj h
          exact ⟨[], t, by rw [hsign.1.1.1]; rfl, rfl⟩
        case isFalse => exact hlater h

/-- Before the sign stands everything that holds no equals sign. -/
theorem exists_of_find? {front rest : Text} (h : find? (front ++ rest) = some n)
    (hfront : '=' ∉ front) : ∃ l r, rest = l ++ '=' :: r ∧ n = (front ++ l).length := by
  obtain ⟨l, r, heq, rfl⟩ := exists_of_findFrom h
  rw [Nat.zero_add]
  rcases List.append_eq_append_iff.mp heq with ⟨l', rfl, hrest⟩ | ⟨l', rfl, hrest⟩
  · exact ⟨l', r, hrest, rfl⟩
  · cases l' with
    | nil => exact ⟨[], r, hrest.symm, by simp⟩
    | cons c l' =>
      obtain rfl : '=' = c := (List.cons.inj hrest).1
      simp at hfront

theorem isQuiet_of_isBlank (h : Text.isBlank c = true) : IsQuiet c :=
  isQuiet_of_class (by decide) h

theorem isQuiet_of_isLatin (h : isLatin c = true) : IsQuiet c := isQuiet_of_class (by decide) h

theorem isQuiet_of_isGreek (h : isGreek c = true) : IsQuiet c := isQuiet_of_class (by decide) h

/-! ### Texts with the same signs -/

/-- Wherever the two texts stand, there is a sign in both or in none. -/
structure SameSigns (x y : Text) : Prop where
  found : ∀ prev k i j, (findFrom prev k i x).isSome = (findFrom prev k j y).isSome
  head : x.head? = some '=' ↔ y.head? = some '='

namespace SameSigns

theorem cons (h : SameSigns x y) : SameSigns (c :: x) (c :: y) := by
  refine ⟨fun prev k i j => ?_, Iff.rfl⟩
  have hhead : (x.head? != some '=') = (y.head? != some '=') := by
    rw [Bool.eq_iff_iff, bne_iff_ne, bne_iff_ne, ne_eq, ne_eq, h.head]
  rw [findFrom, findFrom, hhead]
  split
  · exact h.found _ _ _ _
  · split
    · exact h.found _ _ _ _
    · split
      · rfl
      · exact h.found _ _ _ _

theorem append_left (w : Text) (h : SameSigns x y) : SameSigns (w ++ x) (w ++ y) := by
  induction w with
  | nil => exact h
  | cons c w ih => exact ih.cons

theorem refl (t : Text) : SameSigns t t := by
  have hnil : SameSigns [] [] := ⟨fun _ _ _ _ => rfl, Iff.rfl⟩
  simpa using hnil.append_left t

theorem trans (hxy : SameSigns x y) (hyz : SameSigns y z) : SameSigns x z :=
  ⟨fun prev k i j => (hxy.found prev k i i).trans (hyz.found prev k i j),
    hxy.head.trans hyz.head⟩

end SameSigns

/-- Runs of quiet characters may stand for each other. -/
theorem sameSigns_quiet (hv : v ≠ []) (hw : w ≠ []) (hquietv : ∀ c ∈ v, IsQuiet c)
    (hquietw : ∀ c ∈ w, IsQuiet c) (h : SameSigns x y) : SameSigns (v ++ x) (w ++ y) := by
  obtain ⟨c, v, rfl⟩ := List.exists_cons_of_ne_nil hv
  obtain ⟨d, w, rfl⟩ := List.exists_cons_of_ne_nil hw
  obtain ⟨hc, hquietv⟩ := List.forall_mem_cons.mp hquietv
  obtain ⟨hd, hquietw⟩ := List.forall_mem_cons.mp hquietw
  constructor
  · intro prev k i j
    rw [List.cons_append, List.cons_append, findFrom_cons hc, findFrom_cons hd,
      findFrom_quiet hquietv, findFrom_quiet hquietw]
    exact h.found _ _ _ _
  · simp [hc.2.2.1, hd.2.2.1]

theorem findFrom_of_head (ht : t.head? ≠ some '=') :
    findFrom prev k i t = findFrom none k i t := by
  cases t with
  | nil => rfl
  | cons c t =>
    have hc : (c == '=') = false := by simpa using ht
    simp only [findFrom, hc, Bool.false_and]

end Formulary.Assignment
