import Formulary.Proofs.Lexicon.Sign
import Formulary.Proofs.Text.Run

/-! # The one sign of a definition

Which equals signs are assignment signs is said of their places in the text. The search
finds the first of them, and goes on behind it as in a text of its own: outside all
brackets, with the blanks at the ends dropped. So the two sides are those of the one
sign there is, and a text without such a sign, with nothing before it, or with another
one is refused as what it is.
-/

namespace Formulary.Assignment

open Text (strip isBlankText)

variable {t l r blanks : Text} {c : Char} {i j k n : Nat} {prev : Option Char}

/-! ### Signs and their places -/

/-- How many brackets are open behind a character, whatever their kinds. -/
def deepen (depth : Nat) (c : Char) : Nat :=
  if Bracket.isOpening c then depth + 1 else if Bracket.isClosing c then depth - 1 else depth

/-- How many brackets are open behind a text. -/
def openBehind (depth : Nat) (t : Text) : Nat := t.foldl deepen depth

theorem openBehind_append : openBehind k (l ++ r) = openBehind (openBehind k l) r :=
  List.foldl_append

/-- At the position stands an equals sign that is outside all brackets and no part of a comparison,
where `prev` and `depth` are what comes before the text. -/
structure IsSignFrom (prev : Option Char) (depth : Nat) (t : Text) (i : Nat) : Prop where
  equals : t[i]? = some '='
  outside : openBehind depth (t.take i) = 0
  before : ∀ c ∈ (t.take i).getLast?.or prev, c ∉ ['<', '>', '!', '=']
  after : t[i + 1]? ≠ some '='

/-- The assignment signs of a text. -/
abbrev IsSign (t : Text) (i : Nat) : Prop := IsSignFrom none 0 t i

/-- The first of the signs. -/
def IsFirstFrom (prev : Option Char) (depth : Nat) (t : Text) (i : Nat) : Prop :=
  IsSignFrom prev depth t i ∧ ∀ j < i, ¬ IsSignFrom prev depth t j

abbrev IsFirst (t : Text) (i : Nat) : Prop := IsFirstFrom none 0 t i

theorem joinsEquals_eq_false : joinsEquals prev = false ↔ ∀ c ∈ prev, c ∉ ['<', '>', '!', '='] := by
  cases prev with
  | none => simp [joinsEquals]
  | some c => simp [joinsEquals, and_assoc]

theorem not_isSignFrom_nil : ¬ IsSignFrom prev k [] i := fun h => by simpa using h.equals

theorem isSignFrom_zero : IsSignFrom prev k (c :: t) 0 ↔
    c = '=' ∧ k = 0 ∧ joinsEquals prev = false ∧ t.head? ≠ some '=' := by
  rw [joinsEquals_eq_false]
  constructor
  · rintro ⟨hequals, houtside, hbefore, hafter⟩
    exact ⟨by simpa using hequals, houtside, by simpa using hbefore,
      by simpa [List.head?_eq_getElem?] using hafter⟩
  · rintro ⟨rfl, rfl, hbefore, hafter⟩
    exact ⟨rfl, rfl, by simpa using hbefore, by simpa [List.head?_eq_getElem?] using hafter⟩

/-- What comes last before a place, `prev` if nothing does. -/
theorem getLast?_cons_or : (c :: l).getLast?.or prev = l.getLast?.or (some c) := by
  rw [List.getLast?_cons]
  cases l.getLast? <;> rfl

theorem isSignFrom_succ :
    IsSignFrom prev k (c :: t) (i + 1) ↔ IsSignFrom (some c) (deepen k c) t i := by
  have hlast : ((c :: t).take (i + 1)).getLast?.or prev = (t.take i).getLast?.or (some c) :=
    getLast?_cons_or
  constructor
  · rintro ⟨hequals, houtside, hbefore, hafter⟩
    exact ⟨hequals, houtside, hlast ▸ hbefore, hafter⟩
  · rintro ⟨hequals, houtside, hbefore, hafter⟩
    exact ⟨hequals, houtside, hlast.symm ▸ hbefore, hafter⟩

/-- The signs behind a part of the text. -/
theorem isSignFrom_append : IsSignFrom prev k (l ++ r) (l.length + j) ↔
    IsSignFrom (l.getLast?.or prev) (openBehind k l) r j := by
  induction l generalizing prev k with
  | nil => simp [openBehind]
  | cons c l ih =>
    rw [getLast?_cons_or, List.cons_append, List.length_cons, Nat.add_right_comm, isSignFrom_succ,
      ih]
    rfl

/-! ### The search -/

theorem findFrom_sign (h : IsSignFrom prev k (c :: t) 0) : findFrom prev k i (c :: t) = some i := by
  obtain ⟨rfl, rfl, hbefore, hafter⟩ := isSignFrom_zero.mp h
  have hhead : (t.head? != some '=') = true := bne_iff_ne.mpr hafter
  rw [findFrom, if_neg (by decide), if_neg (by decide), if_pos (by simp [hbefore, hhead])]

theorem findFrom_pass (h : ¬ IsSignFrom prev k (c :: t) 0) :
    findFrom prev k i (c :: t) = findFrom (some c) (deepen k c) (i + 1) t := by
  rw [isSignFrom_zero] at h
  rw [findFrom, deepen]
  split_ifs with hopen hclose hsign
  · rfl
  · rfl
  · refine absurd ?_ h
    simpa [and_assoc] using hsign
  · rfl

theorem findFrom_eq_none_iff : findFrom prev k i t = none ↔ ∀ j, ¬ IsSignFrom prev k t j := by
  induction t generalizing prev k i with
  | nil => exact iff_of_true rfl fun _ => not_isSignFrom_nil
  | cons c t ih =>
    by_cases h : IsSignFrom prev k (c :: t) 0
    · rw [findFrom_sign h]
      exact iff_of_false (by simp) fun hnone => hnone 0 h
    · rw [findFrom_pass h, ih]
      constructor
      · rintro hnone (_ | j)
        · exact h
        · exact isSignFrom_succ.not.mpr (hnone j)
      · exact fun hnone j => isSignFrom_succ.not.mp (hnone (j + 1))

/-- What is found is the first sign. -/
theorem isFirstFrom_of_findFrom (h : findFrom prev k i t = some n) :
    ∃ j, n = i + j ∧ IsFirstFrom prev k t j := by
  induction t generalizing prev k i with
  | nil => simp [findFrom] at h
  | cons c t ih =>
    by_cases hsign : IsSignFrom prev k (c :: t) 0
    · rw [findFrom_sign hsign] at h
      exact ⟨0, (Option.some.inj h).symm, hsign, by simp⟩
    · rw [findFrom_pass hsign] at h
      obtain ⟨j, rfl, hj, hfirst⟩ := ih h
      refine ⟨j + 1, by omega, isSignFrom_succ.mpr hj, ?_⟩
      rintro (_ | m) hm
      · exact hsign
      · exact isSignFrom_succ.not.mpr (hfirst m (Nat.lt_of_succ_lt_succ hm))

theorem IsFirstFrom.unique (hi : IsFirstFrom prev k t i) (hj : IsFirstFrom prev k t j) : i = j :=
  Nat.le_antisymm (Nat.not_lt.mp fun h => hi.2 j h hj.1) (Nat.not_lt.mp fun h => hj.2 i h hi.1)

theorem find?_eq_some_iff : find? t = some i ↔ IsFirst t i := by
  constructor
  · intro h
    obtain ⟨j, rfl, hj⟩ := isFirstFrom_of_findFrom h
    rwa [Nat.zero_add]
  · intro h
    cases hfind : find? t with
    | none => exact absurd h.1 (findFrom_eq_none_iff.mp hfind i)
    | some n =>
      obtain ⟨j, rfl, hj⟩ := isFirstFrom_of_findFrom hfind
      rw [Nat.zero_add, hj.unique h]

/-! ### Behind the first sign -/

/-- Blanks at the end bring no sign in. -/
theorem sameSigns_append_blanks (h : ∀ b ∈ blanks, Text.isBlank b = true) :
    SameSigns (t ++ blanks) t := by
  have hnone : SameSigns blanks [] := by
    constructor
    · intro prev k i j
      cases blanks with
      | nil => rfl
      | cons b blanks =>
        obtain ⟨hb, hblanks⟩ := List.forall_mem_cons.mp h
        rw [findFrom_cons (isQuiet_of_isBlank hb), ← List.append_nil blanks,
          findFrom_quiet fun b hb => isQuiet_of_isBlank (hblanks b hb)]
        rfl
    · refine iff_of_false (fun hhead => ?_) (by simp)
      exact absurd (h _ (List.mem_of_mem_head? hhead)) (by decide)
  simpa using hnone.append_left t

theorem isSome_find?_strip (t : Text) : (find? (strip t)).isSome = (find? t).isSome := by
  obtain ⟨before, behind, ht, hbefore, hbehind⟩ := Text.strip_split t
  calc (find? (strip t)).isSome
      = (findFrom none 0 (0 + before.length) (strip t ++ behind)).isSome :=
        ((sameSigns_append_blanks hbehind).found none 0 _ _).symm
    _ = (find? (before ++ (strip t ++ behind))).isSome := by
        rw [find?, findFrom_quiet fun b hb => isQuiet_of_isBlank (hbefore b hb)]
    _ = (find? t).isSome := by rw [← ht]

/-- The part behind a sign has the signs that the whole text has there. -/
theorem isSome_find?_behind (h : IsSign t i) :
    (find? (strip (t.drop (i + 1)))).isSome = true ↔ ∃ j, i < j ∧ IsSign t j := by
  obtain ⟨hlt, hget⟩ := List.getElem?_eq_some_iff.mp h.equals
  generalize hl : t.take i = l
  generalize hr : t.drop (i + 1) = r
  have hlength : l.length = i := by rw [← hl, List.length_take, Nat.min_eq_left hlt.le]
  have ht : t = (l ++ ['=']) ++ r := by
    rw [← hl, ← hr, ← hget, List.take_append_getElem, List.take_append_drop]
  have hhead : r.head? ≠ some '=' := by
    rw [← hr, List.head?_drop]
    exact h.after
  have hclosed : openBehind 0 (l ++ ['=']) = 0 := by
    have houtside := h.outside
    rw [hl] at houtside
    rw [openBehind_append, houtside]
    rfl
  have hsigns : ∀ m, IsSign t (i + 1 + m) ↔ IsSignFrom (some '=') 0 r m := by
    intro m
    have hplace : i + 1 + m = (l ++ ['=']).length + m := by simp [hlength]
    rw [hplace, ht, IsSign, isSignFrom_append, hclosed]
    simp
  have hfind : findFrom (some '=') 0 0 r = find? r := findFrom_of_head hhead
  rw [isSome_find?_strip, ← hfind, Option.isSome_iff_ne_none, ne_eq, findFrom_eq_none_iff,
    not_forall_not]
  constructor
  · rintro ⟨m, hm⟩
    exact ⟨i + 1 + m, by omega, (hsigns m).mpr hm⟩
  · rintro ⟨j, hj, hsign⟩
    obtain ⟨m, rfl⟩ := Nat.exists_eq_add_of_le (Nat.succ_le_of_lt hj)
    exact ⟨m, (hsigns m).mp hsign⟩

/-! ### The split -/

/-- What splitting a text comes to, told by its signs. -/
inductive Splits (t : Text) : Except BindError (Text × Text) → Prop
  | unsigned (h : ∀ i, ¬ IsSign t i) : Splits t (.error .missingEquals)
  | unnamed {i : Nat} (h : IsFirst t i) (hblank : isBlankText (t.take i) = true) :
      Splits t (.error (.missingName i))
  | several {i j : Nat} (h : IsFirst t i) (hnamed : isBlankText (t.take i) = false) (hlt : i < j)
      (hj : IsSign t j) : Splits t (.error .multipleEquals)
  | once {i : Nat} (h : ∀ j, IsSign t j ↔ j = i) (hnamed : isBlankText (t.take i) = false) :
      Splits t (.ok (strip (t.take i), strip (t.drop (i + 1))))

theorem splits_split (t : Text) : Splits t (split t) := by
  unfold split
  split
  case h_1 hfind => exact .unsigned (findFrom_eq_none_iff.mp hfind)
  case h_2 i hfind =>
    have hfirst := find?_eq_some_iff.mp hfind
    dsimp only
    split
    case isTrue hempty =>
      exact .unnamed hfirst (Text.strip_eq_nil.mp (List.isEmpty_iff.mp hempty))
    case isFalse hempty =>
      have hnamed : isBlankText (t.take i) = false := by
        rw [Bool.eq_false_iff, ne_eq, ← Text.strip_eq_nil]
        simpa using hempty
      split
      case isTrue hmore =>
        obtain ⟨j, hlt, hj⟩ := (isSome_find?_behind hfirst.1).mp hmore
        exact .several hfirst hnamed hlt hj
      case isFalse hmore =>
        refine .once (fun j => ⟨fun hj => ?_, fun hj => hj ▸ hfirst.1⟩) hnamed
        have hnot : ¬ i < j := fun hlt => hmore ((isSome_find?_behind hfirst.1).mpr ⟨j, hlt, hj⟩)
        exact Nat.le_antisymm (Nat.not_lt.mp hnot) (Nat.not_lt.mp fun hlt => hfirst.2 j hlt hj)

theorem isFirst_of_once (h : ∀ j, IsSign t j ↔ j = i) : IsFirst t i :=
  ⟨(h i).mpr rfl, fun j hlt hj => hlt.ne ((h j).mp hj)⟩

theorem isEmpty_strip_take : (strip (t.take i)).isEmpty = isBlankText (t.take i) := by
  rw [Bool.eq_iff_iff, List.isEmpty_iff, Text.strip_eq_nil]

/-- The signs leave no choice. -/
theorem Splits.split_eq {x : Except BindError (Text × Text)} (h : Splits t x) : split t = x := by
  cases h with
  | unsigned hnone =>
    have hfind : find? t = none := findFrom_eq_none_iff.mpr hnone
    rw [split, hfind]
  | unnamed h hblank =>
    rw [split, find?_eq_some_iff.mpr h]
    simp [isEmpty_strip_take, hblank]
  | several h hnamed hlt hj =>
    have hmore := (isSome_find?_behind h.1).mpr ⟨_, hlt, hj⟩
    rw [split, find?_eq_some_iff.mpr h]
    simp [isEmpty_strip_take, hnamed, hmore]
  | @once i honly hnamed =>
    have h := isFirst_of_once honly
    have hmore : ¬ (find? (strip (t.drop (i + 1)))).isSome = true := by
      rw [isSome_find?_behind h.1]
      rintro ⟨j, hlt, hj⟩
      exact hlt.ne' ((honly j).mp hj)
    rw [split, find?_eq_some_iff.mpr h]
    simp only [isEmpty_strip_take, hnamed, Bool.false_eq_true, if_false, if_neg hmore]

theorem split_eq_iff {x : Except BindError (Text × Text)} : split t = x ↔ Splits t x :=
  ⟨fun h => h ▸ splits_split t, Splits.split_eq⟩

/-- The text is refused, and the code tells why. -/
def Refused (t : Text) (code : String) : Prop := ∃ e, split t = .error e ∧ e.code = code

/-- A text is split at its one assignment sign if something stands before it. Otherwise it is
refused: for want of a sign, for want of a name before the first one, or for a second sign. -/
theorem split_decides (t : Text) :
    (∀ sides, split t = .ok sides ↔ ∃ i, (∀ j, IsSign t j ↔ j = i) ∧
      isBlankText (t.take i) = false ∧ sides = (strip (t.take i), strip (t.drop (i + 1)))) ∧
    (Refused t "MISSING_EQUALS" ↔ ∀ i, ¬ IsSign t i) ∧
    (Refused t "MISSING_NAME" ↔ ∃ i, IsFirst t i ∧ isBlankText (t.take i) = true) ∧
    (Refused t "MULTIPLE_EQUALS" ↔
      ∃ i j, IsFirst t i ∧ isBlankText (t.take i) = false ∧ i < j ∧ IsSign t j) := by
  refine ⟨fun sides => ?_, ?_, ?_, ?_⟩
  · rw [split_eq_iff]
    constructor
    · intro h
      cases h with
      | once honly hnamed => exact ⟨_, honly, hnamed, rfl⟩
    · rintro ⟨i, honly, hnamed, rfl⟩
      exact .once honly hnamed
  · simp only [Refused, split_eq_iff]
    constructor
    · rintro ⟨e, h, hcode⟩
      cases h with
      | unsigned hnone => exact hnone
      | unnamed => simp [BindError.code] at hcode
      | several => simp [BindError.code] at hcode
    · exact fun hnone => ⟨_, .unsigned hnone, rfl⟩
  · simp only [Refused, split_eq_iff]
    constructor
    · rintro ⟨e, h, hcode⟩
      cases h with
      | unsigned => simp [BindError.code] at hcode
      | unnamed h hblank => exact ⟨_, h, hblank⟩
      | several => simp [BindError.code] at hcode
    · rintro ⟨i, h, hblank⟩
      exact ⟨_, .unnamed h hblank, rfl⟩
  · simp only [Refused, split_eq_iff]
    constructor
    · rintro ⟨e, h, hcode⟩
      cases h with
      | unsigned => simp [BindError.code] at hcode
      | unnamed => simp [BindError.code] at hcode
      | several h hnamed hlt hj => exact ⟨_, _, h, hnamed, hlt, hj⟩
    · rintro ⟨i, j, h, hnamed, hlt, hj⟩
      exact ⟨_, .several h hnamed hlt hj, rfl⟩

/-- A comparison is no sign. -/
example : split (text "f(a == b) = c") = .ok (text "f(a == b)", text "c") := by decide

end Formulary.Assignment
