import Formulary.Proofs.Lexicon.Key

/-! # Commands replaced

Reading from left to right, a key gives way to its replacement unless a backslash
stands before it. What is left has a key again only where a command was replaced by
letters right behind the letters of an unknown one.
-/

namespace Formulary.Lexicon

open Text (Stops)

variable {lex : Lexicon} {t u key e : Text} {c : Char} {g : Bool} {prev : Option Char}

/-- The keys of `t` replaced, where `guarded` tells that a backslash comes just before. -/
def replacedFrom (lex : Lexicon) (guarded : Bool) (t : Text) : Text :=
  lex.replaceFrom (if guarded then some '\\' else none) 0 t

theorem replaceFrom_eq (lex : Lexicon) (prev : Option Char) (t : Text) :
    lex.replaceFrom prev 0 t = lex.replacedFrom (prev == some '\\') t := by
  by_cases h : prev = some '\\'
  · rw [h]
    rfl
  · have hprev : (prev == some '\\') = false := beq_eq_false_iff_ne.mpr h
    rw [hprev, replacedFrom]
    cases t <;> simp [replaceFrom, hprev]

theorem replaceBackslash_eq (lex : Lexicon) (t : Text) :
    lex.replaceBackslash t = lex.replacedFrom false t := rfl

theorem replacedFrom_cons (h : g = true ∨ lex.longest? (c :: t) = none) :
    lex.replacedFrom g (c :: t) = c :: lex.replacedFrom (c == '\\') t := by
  have hnext : lex.replacedFrom (c == '\\') t = lex.replaceFrom (some c) 0 t := by
    rw [replaceFrom_eq]
    rfl
  rw [hnext]
  cases g with
  | true => simp [replacedFrom, replaceFrom]
  | false =>
    have hnone := h.resolve_left (by simp)
    simp [replacedFrom, replaceFrom, hnone]

/-- The characters of a key are skipped. -/
theorem replaceFrom_length {w : Text} (hne : w ≠ []) (hw : ∀ c ∈ w, c ≠ '\\') :
    lex.replaceFrom prev w.length (w ++ t) = lex.replacedFrom false t := by
  induction w generalizing prev with
  | nil => exact absurd rfl hne
  | cons c w ih =>
    obtain ⟨hc, hw⟩ := List.forall_mem_cons.mp hw
    rw [List.cons_append, List.length_cons, replaceFrom]
    by_cases hnil : w = []
    · have hprev : (some c == some '\\') = false := beq_eq_false_iff_ne.mpr (by simpa using hc)
      rw [hnil, List.nil_append, List.length_nil, replaceFrom_eq, hprev]
    · exact ih hnil hw

theorem ne_backslash_of_isLatin (h : isLatin c = true) : c ≠ '\\' := by
  rintro rfl
  exact absurd h (by decide)

namespace Regular

variable (h : lex.Regular)

include h

theorem replacedFrom_nil : lex.replacedFrom g [] = [] := by
  have hnone : lex.longest? [] = none := h.longest?_of_head (by simp)
  cases g <;> simp [replacedFrom, replaceFrom, hnone]

theorem replacedFrom_key (hkey : lex.longest? (key ++ t) = some (key, e)) :
    lex.replacedFrom false (key ++ t) = e ++ lex.replacedFrom false t := by
  obtain ⟨hk, -, -, -⟩ := h.of_longest? hkey
  obtain ⟨letters, rfl⟩ := List.head?_eq_some_iff.mp hk.head
  have hskip : lex.replaceFrom (some '\\') letters.length (letters ++ t) =
      lex.replacedFrom false t :=
    replaceFrom_length hk.nonempty fun c hc => ne_backslash_of_isLatin (hk.latin c hc)
  rw [← hskip]
  simp only [List.cons_append] at hkey
  simp [replacedFrom, replaceFrom, hkey]

/-- A text is read from its front: a character is copied, or a key is replaced. -/
@[elab_as_elim]
theorem induct {P : Bool → Text → Prop} (nil : ∀ g, P g [])
    (copy : ∀ g c t, (g = true ∨ lex.longest? (c :: t) = none) → P (c == '\\') t → P g (c :: t))
    (key : ∀ key e t, lex.longest? (key ++ t) = some (key, e) → P false t → P false (key ++ t))
    (g : Bool) (t : Text) : P g t := by
  induction hn : t.length using Nat.strongRecOn generalizing g t with
  | _ n ih =>
    subst hn
    cases t with
    | nil => exact nil g
    | cons c t =>
      by_cases hcopy : g = true ∨ lex.longest? (c :: t) = none
      · exact copy g c t hcopy (ih t.length (Nat.lt_succ_self _) _ t rfl)
      · rw [not_or, Bool.not_eq_true, ← ne_eq, Option.ne_none_iff_exists'] at hcopy
        obtain ⟨rfl, ⟨k, e⟩, hkey⟩ := hcopy
        obtain ⟨hk, ⟨post, hpost⟩, -, -⟩ := h.of_longest? hkey
        have hshorter : post.length < (c :: t).length := by
          rw [hpost, hk.eq, List.length_append, List.length_cons]
          omega
        rw [hpost] at hkey ⊢
        exact key k e post hkey (ih post.length (hpost ▸ hshorter) false post rfl)

end Regular

/-! ### Texts without keys -/

/-- No key stands where one would be replaced. -/
def KeyFree (lex : Lexicon) : Bool → Text → Prop
  | _, [] => True
  | g, c :: t => (g = true ∨ lex.longest? (c :: t) = none) ∧ KeyFree lex (c == '\\') t

namespace Regular

variable (h : lex.Regular)

include h

theorem replacedFrom_of_keyFree (ht : lex.KeyFree g t) : lex.replacedFrom g t = t := by
  induction t generalizing g with
  | nil => exact h.replacedFrom_nil
  | cons c t ih => rw [replacedFrom_cons ht.1, ih ht.2]

theorem keyFree_of_not_mem (ht : '\\' ∉ t) : lex.KeyFree g t := by
  induction t generalizing g with
  | nil => trivial
  | cons c t ih =>
    rw [List.mem_cons, not_or] at ht
    have hhead : (c :: t).head? ≠ some '\\' := by simpa using Ne.symm ht.1
    exact ⟨Or.inr (h.longest?_of_head hhead), ih ht.2⟩

/-- Every replacement takes one backslash away. -/
theorem count_replacedFrom (g : Bool) (t : Text) :
    (lex.replacedFrom g t).count '\\' ≤ t.count '\\' ∧
      ((lex.replacedFrom g t).count '\\' = t.count '\\' → lex.KeyFree g t) := by
  induction g, t using h.induct with
  | nil => exact ⟨by rw [h.replacedFrom_nil], fun _ => trivial⟩
  | copy g c t hc ih =>
    rw [replacedFrom_cons hc, List.count_cons, List.count_cons]
    exact ⟨by omega, fun he => ⟨hc, ih.2 (by omega)⟩⟩
  | key k e t hkey ih =>
    obtain ⟨hk, -, -, he⟩ := h.of_longest? hkey
    have hzero : e.count '\\' = 0 := List.count_eq_zero.mpr fun hin => (he _ hin).1 rfl
    have hone : 1 ≤ k.count '\\' := by
      rw [hk.eq, List.count_cons_self]
      omega
    rw [h.replacedFrom_key hkey, List.count_append, List.count_append, hzero]
    exact ⟨by omega, fun he => by omega⟩

theorem plain_replacedFrom (ht : ∀ c ∈ t, plainOperator c = c) :
    ∀ c ∈ lex.replacedFrom g t, plainOperator c = c := by
  induction g, t using h.induct with
  | nil => simp [h.replacedFrom_nil]
  | copy g c t hc ih =>
    obtain ⟨hplain, ht⟩ := List.forall_mem_cons.mp ht
    rw [replacedFrom_cons hc]
    exact List.forall_mem_cons.mpr ⟨hplain, ih ht⟩
  | key k e t hkey ih =>
    obtain ⟨-, -, -, he⟩ := h.of_longest? hkey
    rw [h.replacedFrom_key hkey]
    intro c hc
    rcases List.mem_append.mp hc with hc | hc
    · exact (he c hc).2
    · exact ih (fun c hc => ht c (List.mem_append_right _ hc)) c hc

end Regular

/-! ### Where keys come up -/

/-- Behind a backslash: letters that are no command there, but are one or begin one together with
what replaces the command behind them. -/
def RunsOn (lex : Lexicon) (t : Text) : Prop :=
  ∃ w key e post, t = w ++ (key ++ post) ∧ w ≠ [] ∧ (∀ c ∈ w, isLatin c = true) ∧
    lex.longest? ('\\' :: w) = none ∧ lex.longest? (key ++ post) = some (key, e) ∧
    lex.longest? ('\\' :: (w ++ (e ++ lex.replaceBackslash post))) ≠ none

/-- A backslash that none stands before, and behind it an unknown command that a known one
completes. -/
def Joins (lex : Lexicon) (t : Text) : Prop :=
  ∃ pre post, t = pre ++ '\\' :: post ∧ pre.getLast? ≠ some '\\' ∧ lex.RunsOn post

/-- `Joins` read from the front. -/
def JoinsFrom (lex : Lexicon) : Bool → Text → Prop
  | _, [] => False
  | g, c :: t => (g = false ∧ c = '\\' ∧ lex.RunsOn t) ∨ JoinsFrom lex (c == '\\') t

theorem joinsFrom_iff : lex.JoinsFrom g t ↔ ∃ pre post, t = pre ++ '\\' :: post ∧
    (pre = [] → g = false) ∧ pre.getLast? ≠ some '\\' ∧ lex.RunsOn post := by
  induction t generalizing g with
  | nil => simp [JoinsFrom]
  | cons c t ih =>
    rw [JoinsFrom, ih]
    constructor
    · rintro (⟨rfl, rfl, hruns⟩ | ⟨pre, post, rfl, hg, hlast, hruns⟩)
      · exact ⟨[], t, rfl, fun _ => rfl, by simp, hruns⟩
      · refine ⟨c :: pre, post, rfl, by simp, ?_, hruns⟩
        cases pre with
        | nil => simpa using hg rfl
        | cons d pre => simpa [List.getLast?_cons_cons] using hlast
    · rintro ⟨pre, post, ht, hg, hlast, hruns⟩
      cases pre with
      | nil =>
        obtain ⟨rfl, rfl⟩ := List.cons.inj ht
        exact Or.inl ⟨hg rfl, rfl, hruns⟩
      | cons d pre =>
        obtain ⟨rfl, rfl⟩ := List.cons.inj ht
        refine Or.inr ⟨pre, post, rfl, ?_, ?_, hruns⟩
        · rintro rfl
          simpa using hlast
        · cases pre with
          | nil => simp
          | cons d pre => simpa [List.getLast?_cons_cons] using hlast

theorem joins_iff : lex.Joins t ↔ lex.JoinsFrom false t := by
  rw [joinsFrom_iff]
  simp [Joins]

theorem joinsFrom_append {w : Text} (hne : w ≠ []) (hw : ∀ c ∈ w, isLatin c = true) :
    lex.JoinsFrom g (w ++ t) ↔ lex.JoinsFrom false t := by
  induction w generalizing g with
  | nil => exact absurd rfl hne
  | cons c w ih =>
    obtain ⟨hc, hw⟩ := List.forall_mem_cons.mp hw
    have hslash := ne_backslash_of_isLatin hc
    have hnext : lex.JoinsFrom false (w ++ t) ↔ lex.JoinsFrom false t := by
      cases w with
      | nil => rfl
      | cons d w => exact ih (by simp) hw
    rw [List.cons_append, JoinsFrom, beq_eq_false_iff_ne.mpr hslash, hnext]
    simp [hslash]

theorem Regular.keyFree_append (h : lex.Regular) (hne : e ≠ []) (he : '\\' ∉ e) :
    lex.KeyFree g (e ++ t) ↔ lex.KeyFree false t := by
  induction e generalizing g with
  | nil => exact absurd rfl hne
  | cons c e ih =>
    rw [List.mem_cons, not_or] at he
    have hhead : (c :: (e ++ t)).head? ≠ some '\\' := by simpa using Ne.symm he.1
    have hnext : lex.KeyFree false (e ++ t) ↔ lex.KeyFree false t := by
      cases e with
      | nil => rfl
      | cons d e => exact ih (by simp) he.2
    rw [List.cons_append, KeyFree, beq_eq_false_iff_ne.mpr (Ne.symm he.1), hnext]
    simp [h.longest?_of_head hhead]

theorem run_of_append {w : Text} (hw : ∀ c ∈ w, isLatin c = true) (ht : Stops isLatin t) :
    (w ++ t).takeWhile isLatin = w ∧ (w ++ t).dropWhile isLatin = t :=
  ⟨Text.takeWhile_append_stop hw ht, Text.dropWhile_append_stop hw ht⟩

theorem IsKey.stops (h : IsKey key) : Stops isLatin (key ++ t) := by
  rw [h.eq]
  simp [Stops, isLatin]

namespace Regular

variable (h : lex.Regular)

include h

theorem replacedFrom_latin {w : Text} (hne : w ≠ []) (hw : ∀ c ∈ w, isLatin c = true) :
    lex.replacedFrom g (w ++ t) = w ++ lex.replacedFrom false t := by
  induction w generalizing g with
  | nil => exact absurd rfl hne
  | cons c w ih =>
    obtain ⟨hc, hw⟩ := List.forall_mem_cons.mp hw
    have hslash := ne_backslash_of_isLatin hc
    have hcopy : lex.longest? (c :: (w ++ t)) = none := h.longest?_of_head (by simpa using hslash)
    have hnext : lex.replacedFrom false (w ++ t) = w ++ lex.replacedFrom false t := by
      cases w with
      | nil => rfl
      | cons d w => exact ih (by simp) hw
    rw [List.cons_append, replacedFrom_cons (Or.inr hcopy), beq_eq_false_iff_ne.mpr hslash, hnext,
      List.cons_append]

/-- A text that is copied at its front keeps its first character. -/
theorem stops_replacedFrom (hcopy : g = true ∨ lex.longest? t = none) (ht : Stops isLatin t) :
    Stops isLatin (lex.replacedFrom g t) := by
  cases t with
  | nil => rwa [h.replacedFrom_nil]
  | cons c t =>
    rw [replacedFrom_cons hcopy]
    exact ht

/-- Where no key stands behind a backslash, one comes up there only if a command runs on. -/
theorem runsOn_iff (hnone : lex.longest? ('\\' :: t) = none) :
    lex.RunsOn t ↔ lex.longest? ('\\' :: lex.replacedFrom true t) ≠ none := by
  generalize hw : t.takeWhile isLatin = w
  generalize hrest : t.dropWhile isLatin = rest
  have hlatin : ∀ c ∈ w, isLatin c = true := fun c hc => List.mem_takeWhile_imp (hw ▸ hc)
  have hstop : Stops isLatin rest := hrest ▸ Text.stops_dropWhile isLatin t
  obtain rfl : t = w ++ rest := by rw [← hw, ← hrest, List.takeWhile_append_dropWhile]
  -- the letters of `RunsOn` are all that come next, and the known command is what follows them
  have hsplit : ∀ {v key e post : Text}, w ++ rest = v ++ (key ++ post) →
      (∀ c ∈ v, isLatin c = true) → lex.longest? (key ++ post) = some (key, e) →
      v = w ∧ rest = key ++ post := by
    intro v key e post heq hv hkey
    have hrun := run_of_append hv ((h.of_longest? hkey).1.stops (t := post))
    rw [← heq, hw, hrest] at hrun
    exact ⟨hrun.1.symm, hrun.2⟩
  by_cases hnil : w = []
  · subst hnil
    have hout := h.stops_replacedFrom (Or.inl rfl : true = true ∨ _) hstop
    have hrun : (lex.replacedFrom true rest).takeWhile isLatin = rest.takeWhile isLatin := by
      rw [Text.takeWhile_eq_nil hout, Text.takeWhile_eq_nil hstop]
    rw [List.nil_append] at hnone ⊢
    rw [h.longest?_congr hrun, hnone]
    refine iff_of_false ?_ (by simp)
    rintro ⟨v, key, e, post, heq, hne, hv, -, hkey, -⟩
    exact hne (hsplit heq hv hkey).1
  · rw [h.replacedFrom_latin hnil hlatin]
    have hletters : lex.longest? ('\\' :: w) = none := by
      rw [← hnone]
      apply h.longest?_congr
      rw [hw, List.takeWhile_eq_self_iff.mpr hlatin]
    cases hk : lex.longest? rest with
    | none =>
      have hout := h.stops_replacedFrom (Or.inr hk : false = true ∨ _) hstop
      have hrun : (w ++ lex.replacedFrom false rest).takeWhile isLatin =
          (w ++ rest).takeWhile isLatin := by
        rw [Text.takeWhile_append_stop hlatin hout, hw]
      rw [h.longest?_congr hrun, hnone]
      refine iff_of_false ?_ (by simp)
      rintro ⟨v, key, e, post, heq, -, hv, -, hkey, -⟩
      rw [← (hsplit heq hv hkey).2, hk] at hkey
      simp at hkey
    | some p =>
      obtain ⟨key, e⟩ := p
      obtain ⟨-, ⟨post, rfl⟩, -, -⟩ := h.of_longest? hk
      rw [h.replacedFrom_key hk]
      constructor
      · rintro ⟨v, key', e', post', heq, -, hv, -, hkey, hfound⟩
        obtain ⟨rfl, hrest'⟩ := hsplit heq hv hkey
        rw [← hrest', hk] at hkey
        obtain ⟨rfl, rfl⟩ := Prod.mk.inj (Option.some.inj hkey)
        obtain rfl := List.append_cancel_left hrest'
        exact hfound
      · exact fun hfound => ⟨w, key, e, post, rfl, hnil, hlatin, hletters, hk, hfound⟩

/-- No key is left to replace unless a command ran on. -/
theorem keyFree_replacedFrom (g : Bool) (t : Text) :
    lex.KeyFree g (lex.replacedFrom g t) ↔ ¬ lex.JoinsFrom g t := by
  induction g, t using h.induct with
  | nil g => simp [h.replacedFrom_nil, KeyFree, JoinsFrom]
  | copy g c t hc ih =>
    rw [replacedFrom_cons hc, KeyFree, JoinsFrom, ih, not_or]
    refine and_congr_left fun _ => ?_
    cases g with
    | true => simp
    | false =>
      by_cases hslash : c = '\\'
      · subst hslash
        have hnone := hc.resolve_left (by simp)
        have hruns := h.runsOn_iff hnone
        simp only [beq_self_eq_true, true_and, hruns]
        simp
      · have hhead :
            (c :: lex.replacedFrom (c == '\\') t).head? ≠ some '\\' := by simpa using hslash
        simp [h.longest?_of_head hhead, hslash]
  | key k e t hkey ih =>
    obtain ⟨hk, -, hne, he⟩ := h.of_longest? hkey
    have hfree : '\\' ∉ e := fun hin => (he _ hin).1 rfl
    rw [h.replacedFrom_key hkey, h.keyFree_append hne hfree, ih]
    obtain ⟨letters, rfl⟩ := List.head?_eq_some_iff.mp hk.head
    have hafter : lex.JoinsFrom true (letters ++ t) ↔ lex.JoinsFrom false t :=
      joinsFrom_append hk.nonempty hk.latin
    rw [List.cons_append, JoinsFrom, beq_self_eq_true, hafter]
    -- the letters of a key that is replaced are a command, so nothing runs on there
    have hno : ¬ lex.RunsOn (letters ++ t) := by
      rintro ⟨w, key', e', post, heq, -, hw, hnone, hkey', -⟩
      have hrun := (run_of_append hw ((h.of_longest? hkey').1.stops (t := post))).1
      rw [← heq] at hrun
      rw [List.cons_append, h.longest?_run, hrun, hnone] at hkey
      simp at hkey
    simp [hno]

end Regular

end Formulary.Lexicon
