import Mathlib.Data.Char
import Mathlib.Data.Finset.Max
import Formulary.Proofs.Calc.Respell.Basic

namespace Formulary

namespace Text

variable {a b s t u : Text}

theorem cons_lt_cons {c d : Char} : c :: s < d :: t ↔ c < d ∨ c = d ∧ s < t := List.cons_lt_cons_iff

theorem le_iff_le : le s t = true ↔ s ≤ t := by
  induction s generalizing t with
  | nil => exact iff_of_true rfl (not_lt.mp (List.not_lt_nil t))
  | cons c s ih =>
    cases t with
    | nil => exact iff_of_false (by simp [le]) (not_le.mpr (List.nil_lt_cons c s))
    | cons d t =>
      rw [le_cons, ih, le_iff_lt_or_eq, le_iff_lt_or_eq, cons_lt_cons, List.cons_eq_cons]
      change c < d ∨ _ ↔ _
      tauto

/-- A character that stands in no word. -/
def nul : Char := '\x00'

theorem nul_le (c : Char) : nul ≤ c := Nat.zero_le c.toNat

theorem lt_append_nul (a t : Text) : a < a ++ nul :: t := by
  induction a with
  | nil => exact List.nil_lt_cons ..
  | cons c a ih => exact cons_lt_cons.mpr (Or.inr ⟨rfl, ih⟩)

theorem append_nul_lt (h : a < b) (hb : nul ∉ b) (t : Text) : a ++ nul :: t < b := by
  induction a generalizing b with
  | nil =>
    cases b with
    | nil => simp at h
    | cons d b =>
      refine cons_lt_cons.mpr (Or.inl (lt_of_le_of_ne (nul_le d) ?_))
      rintro rfl
      simp at hb
  | cons c a ih =>
    cases b with
    | nil => simp at h
    | cons d b =>
      rw [List.mem_cons, not_or] at hb
      rcases cons_lt_cons.mp h with hhead | ⟨rfl, htail⟩
      · exact cons_lt_cons.mpr (Or.inl hhead)
      · exact cons_lt_cons.mpr (Or.inr ⟨rfl, ih htail hb.2⟩)

theorem append_nul_lt_append_nul (h : s < t) (a : Text) : a ++ nul :: s < a ++ nul :: t := by
  induction a with
  | nil => exact cons_lt_cons.mpr (Or.inr ⟨rfl, h⟩)
  | cons c a ih => exact cons_lt_cons.mpr (Or.inr ⟨rfl, ih⟩)

end Text

namespace Respelling

open Text (nul)

variable {old new low s t : Text} {high : List Text}

/-! ### A text in place of another -/

/-- Up to a text nothing changes; what comes after it stays close to it. -/
def pressDown (low t : Text) : Text := if t ≤ low then t else low ++ nul :: t

/-- What comes before other texts makes room for a text; those and what comes after them stay. -/
def pressUp (new : Text) (high : List Text) (t : Text) : Text :=
  if ∃ x ∈ high, x ≤ t then t else new ++ nul :: t

/-- Puts a text in place of another one. -/
def exchange (old new low : Text) (high : List Text) (t : Text) : Text :=
  if t < old then pressDown low t else if t = old then new else pressUp new high t

theorem strictMono_pressDown : StrictMono (pressDown low) := by
  intro s t hst
  unfold pressDown
  split <;> split
  · exact hst
  · exact lt_of_le_of_lt ‹s ≤ low› (Text.lt_append_nul low t)
  · exact absurd (hst.le.trans ‹t ≤ low›) ‹¬ s ≤ low›
  · exact Text.append_nul_lt_append_nul hst low

theorem pressDown_lt (hlow : low < new) (hnew : nul ∉ new) (t : Text) : pressDown low t < new := by
  unfold pressDown
  split
  · exact lt_of_le_of_lt ‹t ≤ low› hlow
  · exact Text.append_nul_lt hlow hnew t

theorem lt_pressUp (hhigh : ∀ x ∈ high, new < x) (t : Text) : new < pressUp new high t := by
  unfold pressUp
  split
  · obtain ⟨x, hx, hxt⟩ := ‹∃ x ∈ high, x ≤ t›
    exact (hhigh x hx).trans_le hxt
  · exact Text.lt_append_nul new t

theorem strictMono_pressUp (hhigh : ∀ x ∈ high, new < x ∧ nul ∉ x) :
    StrictMono (pressUp new high) := by
  intro s t hst
  unfold pressUp
  split <;> split
  · exact hst
  · obtain ⟨x, hx, hxs⟩ := ‹∃ x ∈ high, x ≤ s›
    exact absurd ⟨x, hx, hxs.trans hst.le⟩ ‹¬ ∃ x ∈ high, x ≤ t›
  · obtain ⟨x, hx, hxt⟩ := ‹∃ x ∈ high, x ≤ t›
    exact (Text.append_nul_lt (hhigh x hx).1 (hhigh x hx).2 s).trans_le hxt
  · exact Text.append_nul_lt_append_nul hst new

theorem strictMono_exchange (old : Text) (hlow : low < new) (hnew : nul ∉ new)
    (hhigh : ∀ x ∈ high, new < x ∧ nul ∉ x) : StrictMono (exchange old new low high) := by
  have hdown := pressDown_lt hlow hnew
  have hup := lt_pressUp fun x hx => (hhigh x hx).1
  intro s t hst
  unfold exchange
  rcases lt_trichotomy s old with hs | rfl | hs
  · rw [if_pos hs]
    split
    · exact strictMono_pressDown hst
    · split
      · exact hdown s
      · exact (hdown s).trans (hup t)
  · rw [if_neg (lt_irrefl s), if_pos rfl, if_neg hst.not_gt, if_neg hst.ne']
    exact hup t
  · have ht := hs.trans hst
    rw [if_neg hs.not_gt, if_neg hs.ne', if_neg ht.not_gt, if_neg ht.ne']
    exact strictMono_pressUp hhigh hst

/-- The respelling of a map that keeps the order of texts. -/
def ofStrictMono (f : Text → Text) (hf : StrictMono f) : Respelling where
  spell := f
  le_spell s t := by rw [Bool.eq_iff_iff, Text.le_iff_le, Text.le_iff_le, hf.le_iff_le]

/-- A text that stands among others as another one does may be spelled in its place. -/
theorem exists_spell_eq {X : List Text} (hX : ∀ x ∈ X, nul ∉ x) (hnew : nul ∉ new) (hne : new ≠ [])
    (hold : old ∉ X) (hnot : new ∉ X) (hplace : ∀ x ∈ X, Text.le x old = Text.le x new) :
    ∃ ρ : Respelling, ρ.spell old = new ∧ ∀ x ∈ X, ρ.spell x = x := by
  have hbelow (x : Text) (hx : x ∈ X) : x < old ↔ x < new := by
    have hold' : x ≠ old := fun h => hold (h ▸ hx)
    have hnew' : x ≠ new := fun h => hnot (h ▸ hx)
    rw [← hold'.le_iff_lt, ← hnew'.le_iff_lt, ← Text.le_iff_le, hplace x hx, Text.le_iff_le]
  -- The greatest of the texts before both, or the empty text.
  obtain ⟨low, hlow, hlowest⟩ :=
    (insert [] (X.toFinset.filter (· < old))).exists_max_image id (Finset.insert_nonempty ..)
  have hlownew : low < new := by
    rcases Finset.mem_insert.mp hlow with rfl | hlow
    · exact lt_of_le_of_ne (not_lt.mp (List.not_lt_nil new)) hne.symm
    · obtain ⟨hmem, hlt⟩ := Finset.mem_filter.mp hlow
      exact (hbelow low (List.mem_toFinset.mp hmem)).mp hlt
  have hhigh : ∀ x ∈ X.filter (old < ·), new < x ∧ nul ∉ x := by
    intro x hx
    obtain ⟨hmem, hlt⟩ := List.mem_filter.mp hx
    have hlt : old < x := by simpa using hlt
    have hle : new ≤ x := not_lt.mp ((hbelow x hmem).not.mp hlt.not_gt)
    exact ⟨hle.lt_of_ne fun h => hnot (h ▸ hmem), hX x hmem⟩
  refine ⟨.ofStrictMono _ (strictMono_exchange old hlownew hnew hhigh), ?_, fun x hx => ?_⟩
  · exact (if_neg (lt_irrefl old)).trans (if_pos rfl)
  · show exchange old new low _ x = x
    unfold exchange
    rcases lt_trichotomy x old with hlt | rfl | hlt
    · rw [if_pos hlt, pressDown, if_pos]
      exact hlowest x
        (Finset.mem_insert_of_mem (Finset.mem_filter.mpr ⟨List.mem_toFinset.mpr hx, hlt⟩))
    · exact absurd hx hold
    · rw [if_neg hlt.not_gt, if_neg hlt.ne', pressUp, if_pos]
      exact ⟨x, List.mem_filter.mpr ⟨hx, by simpa using hlt⟩, le_rfl⟩

end Respelling

end Formulary
