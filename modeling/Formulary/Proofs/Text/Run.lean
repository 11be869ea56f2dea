import Mathlib.Data.List.TakeWhile
import Formulary.Text.Basic

/-! # Runs and cuts

A run of a class is what `takeWhile` reads when something outside the class
follows. A cut ends at the first occurrence of its character.
-/

namespace Formulary.Text

variable {p : Char → Bool} {w t : Text}

/-- Nothing of the class comes next. -/
def Stops (p : Char → Bool) (t : Text) : Prop := ∀ c ∈ t.head?, p c = false

theorem eq_false_of_any (h : t.any p = false) : ∀ c ∈ t, p c = false := by
  simpa using h

theorem stops_dropWhile (p : Char → Bool) (t : Text) : Stops p (t.dropWhile p) := by
  intro c hc
  have h := List.head?_dropWhile_not p t
  rw [Option.mem_def.mp hc] at h
  exact h

theorem stops_append (hne : w ≠ []) (hw : ∀ c ∈ w, p c = false) : Stops p (w ++ t) := by
  obtain ⟨d, rest, rfl⟩ := List.exists_cons_of_ne_nil hne
  intro c hc
  obtain rfl : d = c := by simpa using hc
  exact hw d (by simp)

theorem Stops.append (hw : Stops p w) (ht : Stops p t) : Stops p (w ++ t) := by
  cases w with
  | nil => exact ht
  | cons c w => exact hw

theorem takeWhile_eq_nil (ht : Stops p t) : t.takeWhile p = [] := by
  cases t with
  | nil => rfl
  | cons c t => simp [ht c (by simp)]

theorem dropWhile_eq_self (ht : Stops p t) : t.dropWhile p = t := by
  cases t with
  | nil => rfl
  | cons c t => simp [ht c (by simp)]

theorem takeWhile_append_stop (hw : ∀ c ∈ w, p c = true) (ht : Stops p t) :
    (w ++ t).takeWhile p = w := by
  rw [List.takeWhile_append_of_pos hw, takeWhile_eq_nil ht, List.append_nil]

theorem dropWhile_append_stop (hw : ∀ c ∈ w, p c = true) (ht : Stops p t) :
    (w ++ t).dropWhile p = t := by
  rw [List.dropWhile_append_of_pos hw, dropWhile_eq_self ht]

/-- The part behind a front, as long as the text that goes on there, is that text. -/
theorem slice_append (pre w t : Text) :
    slice (pre ++ (w ++ t)) pre.length (pre.length + w.length) = w := by
  rw [slice, ← List.append_assoc, ← List.length_append, List.take_left, List.drop_left]

/-- Cutting after a part without `c` gives that part. -/
theorem cut?_append {c : Char} {a b : Text} (h : c ∉ a) : cut? c (a ++ c :: b) = some (a, b) := by
  induction a with
  | nil => simp [cut?]
  | cons d a ih =>
    rw [List.mem_cons, not_or] at h
    simp [cut?, ih h.2, Ne.symm h.1]

theorem not_mem_of_cut? {c : Char} {t a b : Text} (h : cut? c t = some (a, b)) : c ∉ a := by
  induction t generalizing a with
  | nil => simp [cut?] at h
  | cons d rest ih =>
    unfold cut? at h
    split at h
    case isTrue =>
      obtain ⟨rfl, -⟩ : [] = a ∧ rest = b := by simpa using h
      simp
    case isFalse hd =>
      obtain ⟨⟨x, y⟩, hp, he⟩ := Option.map_eq_some_iff.mp h
      obtain ⟨rfl, rfl⟩ : d :: x = a ∧ y = b := by simpa using he
      simp [ih hp, Ne.symm hd]

theorem not_mem_of_cut?_eq_none {c : Char} {t : Text} (h : cut? c t = none) : c ∉ t := by
  intro hin
  induction t with
  | nil => cases hin
  | cons d rest ih =>
    unfold cut? at h
    split at h
    case isTrue => simp at h
    case isFalse hd =>
      rcases List.mem_cons.mp hin with rfl | hin
      · exact hd rfl
      · exact ih (by simpa using h) hin

/-! ## Words between blanks

A grammar says which words follow one another and leaves blanks free. `Spaced` puts
any blanks around the words; what stripping leaves is one word with blanks around it.
-/

variable {before behind : Text} {words : List Text}

/-- The words in order, with nothing but blanks before, between and behind them. -/
inductive Spaced : List Text → Text → Prop
  | nil {blanks : Text} (h : ∀ c ∈ blanks, isBlank c = true) : Spaced [] blanks
  | cons {blanks word t : Text} {words : List Text} (h : ∀ c ∈ blanks, isBlank c = true)
      (ht : Spaced words t) : Spaced (word :: words) (blanks ++ (word ++ t))

namespace Spaced

theorem front (h : Spaced words t) : Spaced (w :: words) (w ++ t) := by
  have hnone : ∀ c ∈ ([] : Text), isBlank c = true := by simp
  exact .cons hnone h

theorem blank {c : Char} (hc : isBlank c = true) (h : Spaced words t) : Spaced words (c :: t) := by
  cases h with
  | nil h => exact .nil (List.forall_mem_cons.mpr ⟨hc, h⟩)
  | cons h ht =>
    rw [← List.cons_append]
    exact .cons (List.forall_mem_cons.mpr ⟨hc, h⟩) ht

theorem append {more : List Text} {u : Text} (h : Spaced words t) (hmore : Spaced more u) :
    Spaced (words ++ more) (t ++ u) := by
  induction h with
  | @nil blanks h =>
    induction blanks with
    | nil => exact hmore
    | cons c blanks ih =>
      obtain ⟨hc, hblanks⟩ := List.forall_mem_cons.mp h
      exact (ih hblanks).blank hc
  | cons h _ ih =>
    rw [List.cons_append, List.append_assoc, List.append_assoc]
    exact .cons h ih

/-- What spells words one after the other is split where the first of them end. -/
theorem of_append {more : List Text} (h : Spaced (words ++ more) t) :
    ∃ u v, t = u ++ v ∧ Spaced words u ∧ Spaced more v := by
  induction words generalizing t with
  | nil => exact ⟨[], t, rfl, .nil (by simp), h⟩
  | cons word words ih =>
    cases h with
    | @cons blanks _ t _ hblanks ht =>
      obtain ⟨u, v, rfl, hu, hv⟩ := ih ht
      exact ⟨blanks ++ (word ++ u), v, by simp, .cons hblanks hu, hv⟩

theorem of_cons (h : Spaced (w :: words) t) :
    ∃ blanks u, t = blanks ++ (w ++ u) ∧ (∀ c ∈ blanks, isBlank c = true) ∧ Spaced words u := by
  cases h with
  | cons hblanks ht => exact ⟨_, _, rfl, hblanks, ht⟩

theorem of_nil (h : Spaced [] t) : ∀ c ∈ t, isBlank c = true := by
  cases h with
  | nil h => exact h

/-- Blanks before a word of one character go to the words before it. -/
theorem of_append_cons {c : Char} {more : List Text} (h : Spaced (words ++ [c] :: more) t) :
    ∃ u v, t = u ++ c :: v ∧ Spaced words u ∧ Spaced more v := by
  obtain ⟨u, v, rfl, hu, hv⟩ := h.of_append
  obtain ⟨blanks, v, rfl, hblanks, hv⟩ := hv.of_cons
  refine ⟨u ++ blanks, v, by simp, ?_, hv⟩
  simpa using hu.append (.nil hblanks)

theorem flatten_sublist (h : Spaced words t) : words.flatten.Sublist t := by
  induction h with
  | nil => exact List.nil_sublist _
  | cons _ _ ih => exact (ih.append_left _).trans (List.sublist_append_right _ _)

theorem mem (h : Spaced words t) {c : Char} (hc : c ∈ t) :
    isBlank c = true ∨ c ∈ words.flatten := by
  induction h with
  | nil h => exact Or.inl (h c hc)
  | cons h _ ih =>
    rcases List.mem_append.mp hc with hc | hc
    · exact Or.inl (h c hc)
    · rw [List.flatten_cons, List.mem_append]
      rcases List.mem_append.mp hc with hc | hc
      · exact Or.inr (Or.inl hc)
      · exact (ih hc).imp_right Or.inr

/-- Words with nothing between them. -/
theorem flatten (words : List Text) : Spaced words words.flatten := by
  induction words with
  | nil => exact .nil (by simp)
  | cons word words ih => exact ih.front

end Spaced

/-! ### Stripping -/

theorem strip_split (t : Text) : ∃ before behind, t = before ++ (strip t ++ behind) ∧
    (∀ c ∈ before, isBlank c = true) ∧ ∀ c ∈ behind, isBlank c = true := by
  refine ⟨t.takeWhile isBlank, ((stripLeft t).reverse.takeWhile isBlank).reverse, ?_,
    fun c hc => List.mem_takeWhile_imp hc,
    fun c hc => List.mem_takeWhile_imp (List.mem_reverse.mp hc)⟩
  rw [strip, stripRight, ← List.reverse_append, List.takeWhile_append_dropWhile,
    List.reverse_reverse, stripLeft, List.takeWhile_append_dropWhile]

/-- Neither end is blank. -/
def Trim (t : Text) : Prop := Stops isBlank t ∧ Stops isBlank t.reverse

theorem strip_append (hw : Trim w) (hne : w ≠ []) (hbefore : ∀ c ∈ before, isBlank c = true)
    (hbehind : ∀ c ∈ behind, isBlank c = true) : strip (before ++ (w ++ behind)) = w := by
  have hleft : stripLeft (before ++ (w ++ behind)) = w ++ behind := by
    apply dropWhile_append_stop hbefore
    obtain ⟨c, rest, rfl⟩ := List.exists_cons_of_ne_nil hne
    exact hw.1
  have hright : (w ++ behind).reverse.dropWhile isBlank = w.reverse := by
    rw [List.reverse_append]
    exact dropWhile_append_stop (fun c hc => hbehind c (List.mem_reverse.mp hc)) hw.2
  rw [strip, hleft, stripRight, hright, List.reverse_reverse]

theorem strip_eq_self (h : Trim t) : strip t = t := by
  have hnone : ∀ c ∈ ([] : Text), isBlank c = true := by simp
  by_cases hne : t = []
  · rw [hne]
    rfl
  · simpa using strip_append h hne hnone hnone

theorem trim_strip (t : Text) : Trim (strip t) := by
  have hfront : strip t <+: stripLeft t := by
    have hsuffix := List.dropWhile_suffix isBlank (l := (stripLeft t).reverse)
    simpa [strip, stripRight] using hsuffix.reverse
  constructor
  · intro c hc
    obtain ⟨rest, hrest⟩ := List.head?_eq_some_iff.mp hc
    rw [hrest] at hfront
    obtain ⟨more, hmore⟩ := hfront
    exact stops_dropWhile isBlank t c (by rw [← stripLeft, ← hmore]; rfl)
  · rw [strip, stripRight, List.reverse_reverse]
    exact stops_dropWhile _ _

theorem strip_eq_singleton {c : Char} (hc : isBlank c = false) :
    strip t = [c] ↔ Spaced [[c]] t := by
  constructor
  · intro h
    obtain ⟨before, behind, ht, hbefore, hbehind⟩ := strip_split t
    rw [h] at ht
    rw [ht]
    exact .cons hbefore (.nil hbehind)
  · intro h
    cases h with
    | cons hbefore ht =>
      cases ht with
      | nil hbehind =>
        have htrim : Trim [c] := by simp [Trim, Stops, hc]
        exact strip_append htrim (by simp) hbefore hbehind

/-- Blanks around a text are stripped with its own. -/
theorem strip_blanks (hbefore : ∀ c ∈ before, isBlank c = true)
    (hbehind : ∀ c ∈ behind, isBlank c = true) : strip (before ++ (t ++ behind)) = strip t := by
  obtain ⟨front, back, ht, hfront, hback⟩ := strip_split t
  by_cases hne : strip t = []
  · have hblanks : ∀ c ∈ before ++ (t ++ behind), isBlank c = true := by
      rw [ht, hne]
      simp only [List.nil_append, List.forall_mem_append]
      exact ⟨hbefore, ⟨hfront, hback⟩, hbehind⟩
    rw [hne, strip, stripLeft, List.dropWhile_eq_nil_iff.mpr hblanks]
    rfl
  · have hsplit : before ++ (t ++ behind) =
        (before ++ front) ++ (strip t ++ (back ++ behind)) :=
      calc before ++ (t ++ behind)
          = before ++ (front ++ (strip t ++ back) ++ behind) := by rw [← ht]
        _ = _ := by simp
    rw [hsplit]
    exact strip_append (trim_strip t) hne (List.forall_mem_append.mpr ⟨hbefore, hfront⟩)
      (List.forall_mem_append.mpr ⟨hback, hbehind⟩)

theorem strip_eq_nil : strip t = [] ↔ isBlankText t = true := by
  constructor
  · intro h
    obtain ⟨before, behind, ht, hbefore, hbehind⟩ := strip_split t
    rw [h, List.nil_append] at ht
    rw [isBlankText, List.all_eq_true, ht]
    exact List.forall_mem_append.mpr ⟨hbefore, hbehind⟩
  · intro h
    rw [strip, stripLeft, List.dropWhile_eq_nil_iff.mpr (List.all_eq_true.mp h)]
    rfl

/-! ### What is not blank -/

/-- The text without its blanks. -/
def solid (t : Text) : Text := t.filter fun c => !isBlank c

@[simp] theorem solid_append (t u : Text) : solid (t ++ u) = solid t ++ solid u :=
  List.filter_append t u

theorem mem_solid {c : Char} : c ∈ solid t ↔ c ∈ t ∧ isBlank c = false := by
  simp [solid]

theorem solid_of_blank (h : ∀ c ∈ t, isBlank c = true) : solid t = [] := by
  simpa [solid] using h

theorem solid_strip (t : Text) : solid (strip t) = solid t := by
  obtain ⟨before, behind, ht, hbefore, hbehind⟩ := strip_split t
  calc solid (strip t) = solid (before ++ (strip t ++ behind)) := by
        rw [solid_append, solid_append, solid_of_blank hbefore, solid_of_blank hbehind,
          List.nil_append, List.append_nil]
    _ = solid t := by rw [← ht]

theorem Spaced.solid (h : Spaced words t) : solid t = Text.solid words.flatten := by
  induction h with
  | nil h => exact solid_of_blank h
  | cons h _ ih =>
    rw [solid_append, solid_append, solid_of_blank h, ih, List.flatten_cons, solid_append,
      List.nil_append]

/-- Blanks do not count in a class without them. -/
theorem countP_solid {p : Char → Bool} (hp : ∀ c, p c = true → isBlank c = false) :
    (solid t).countP p = t.countP p := by
  rw [solid, List.countP_filter]
  apply List.countP_congr
  intro c _
  by_cases hc : p c = true
  · simp [hc, hp c hc]
  · simp [hc]

end Formulary.Text
