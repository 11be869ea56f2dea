import Formulary.Proofs.Formula.Balance
import Formulary.Proofs.Text.Run

/-! # Texts between brackets

The scanners that only count brackets agree with the stack on balanced text: the
partner of a bracket is not found inside, and no comma inside a bracket splits. So
the arguments of a call are counted as they are written.
-/

namespace Formulary.Bracket

variable {t u : Text} {c o : Char} {stack stack' : List Char}

/-! ### The stack -/

/-- What lies below the open brackets plays no part. -/
theorem openAfter?_append_stack (below : List Char) (h : openAfter? stack t = some stack') :
    openAfter? (stack ++ below) t = some (stack' ++ below) := by
  fun_induction openAfter? stack t with
  | case1 =>
    obtain rfl := Option.some.inj h
    rfl
  | case2 stack c rest hc ih => simpa [openAfter?, hc] using ih h
  | case3 => simp at h
  | case4 c rest hc hclose o outer hfits ih => simpa [openAfter?, hc, hclose, hfits] using ih h
  | case5 => simp at h
  | case6 stack c rest hc hclose ih => simpa [openAfter?, hc, hclose] using ih h

/-- A text without closing braces does not reach below an open brace. -/
theorem openAfter?_above_brace {below : List Char} (ht : '\x7d' ∉ t)
    (h : openAfter? (stack ++ '\x7b' :: below) t = some stack') :
    ∃ above, openAfter? stack t = some above ∧ stack' = above ++ '\x7b' :: below := by
  induction t generalizing stack with
  | nil => exact ⟨stack, rfl, (Option.some.inj h).symm⟩
  | cons c t ih =>
    rw [List.mem_cons, not_or] at ht
    unfold openAfter? at h ⊢
    split at h
    case isTrue hc =>
      rw [if_pos hc]
      exact ih ht.2 h
    case isFalse hc =>
      rw [if_neg hc]
      split at h
      case isTrue hclose =>
        rw [if_pos hclose]
        cases stack with
        | nil =>
          -- only a closing brace fits the open one
          have hfits : closing? '\x7b' ≠ some c := fun hfits => ht.1 (Option.some.inj hfits)
          simp [hfits] at h
        | cons o outer =>
          simp only [List.cons_append] at h ⊢
          split at h
          case isTrue hfits =>
            rw [if_pos hfits]
            exact ih ht.2 h
          case isFalse => simp at h
      case isFalse hclose =>
        rw [if_neg hclose]
        exact ih ht.2 h

/-- Without closing braces every opening one stays open. -/
theorem count_openAfter? (ht : '\x7d' ∉ t) (h : openAfter? stack t = some stack') :
    stack'.count '\x7b' = stack.count '\x7b' + t.count '\x7b' := by
  fun_induction openAfter? stack t with
  | case1 =>
    obtain rfl := Option.some.inj h
    rfl
  | case2 stack c rest hc ih =>
    rw [ih (fun hin => ht (List.mem_cons_of_mem c hin)) h, List.count_cons, List.count_cons]
    omega
  | case3 => simp at h
  | case4 c rest hc hclose o outer hfits ih =>
    have hne : o ≠ '\x7b' := by
      rintro rfl
      obtain rfl : '\x7d' = c := by simpa [closing?] using hfits
      exact ht List.mem_cons_self
    have hc' : c ≠ '\x7b' := by
      rintro rfl
      exact hc (by decide)
    rw [ih (fun hin => ht (List.mem_cons_of_mem c hin)) h, List.count_cons_of_ne hne,
      List.count_cons_of_ne hc']
  | case5 => simp at h
  | case6 stack c rest hc hclose ih =>
    have hc' : c ≠ '\x7b' := by
      rintro rfl
      exact hc (by decide)
    rw [ih (fun hin => ht (List.mem_cons_of_mem c hin)) h, List.count_cons_of_ne hc']

theorem isBalanced_append (ht : isBalanced t = true) (hu : isBalanced u = true) :
    isBalanced (t ++ u) = true := by
  rw [isBalanced_iff] at ht hu ⊢
  rw [openAfter?_append, ht]
  exact hu

/-- What the brackets of a pair are. -/
theorem of_closing? (h : closing? o = some c) :
    isOpening o = true ∧ isClosing c = true ∧ isOpening c = false ∧ o ≠ ',' ∧ c ≠ ',' := by
  unfold closing? at h
  split at h <;> cases h <;> decide

theorem isBalanced_bracketed (hpair : closing? o = some c) (ht : isBalanced t = true) :
    isBalanced (o :: (t ++ [c])) = true := by
  obtain ⟨ho, hc, hc', -, -⟩ := of_closing? hpair
  have hinner := openAfter?_append_stack [o] (isBalanced_iff.mp ht)
  rw [isBalanced_iff, openAfter?, if_pos ho, openAfter?_append]
  rw [List.nil_append] at hinner
  rw [hinner]
  simp [openAfter?, hc, hc', hpair]

/-! ### The counting scanners -/

/-- The open brackets that the search for a partner counts. -/
def rounds (stack : List Char) : Nat := stack.countP fun o => o == '(' || o == '['

/-- No partner is found before the brackets opened in a text are closed. -/
theorem partnerFrom_append {depth i : Nat} (h : openAfter? stack t = some stack') :
    partnerFrom (depth + 1 + rounds stack) i (t ++ u) =
      partnerFrom (depth + 1 + rounds stack') (i + t.length) u := by
  fun_induction openAfter? stack t generalizing i with
  | case1 =>
    obtain rfl := Option.some.inj h
    rfl
  | case2 stack c rest hc ih =>
    rw [List.cons_append, partnerFrom, List.length_cons, Nat.add_comm rest.length 1,
      ← Nat.add_assoc i, ← ih h]
    simp only [isOpening, Bool.or_eq_true, beq_iff_eq] at hc
    rcases hc with (rfl | rfl) | rfl <;> simp [rounds, Nat.add_assoc]
  | case3 => simp at h
  | case4 c rest hc hclose o outer hfits ih =>
    rw [List.cons_append, partnerFrom, List.length_cons, Nat.add_comm rest.length 1,
      ← Nat.add_assoc i, ← ih h]
    simp only [isClosing, Bool.or_eq_true, beq_iff_eq] at hclose
    have hopening : o = '(' ∨ o = '[' ∨ o = '\x7b' := by
      unfold closing? at hfits
      split at hfits <;> simp_all
    have hopen : depth + 1 + (rounds outer + 1) ≠ 1 := by omega
    rcases hclose with (rfl | rfl) | rfl <;> rcases hopening with rfl | rfl | rfl <;>
      simp_all [closing?, rounds]
  | case5 => simp at h
  | case6 stack c rest hc hclose ih =>
    rw [List.cons_append, partnerFrom, List.length_cons, Nat.add_comm rest.length 1,
      ← Nat.add_assoc i, ← ih h]
    simp only [isOpening, isClosing, Bool.or_eq_true, beq_iff_eq, not_or] at hc hclose
    simp [hc, hclose]

/-- Inside brackets no comma splits. -/
theorem splitFrom_append {depth : Nat} {piece : Text} (h : openAfter? stack t = some stack') :
    splitFrom piece (depth + 1 + stack.length) (t ++ u) =
      splitFrom (t.reverse ++ piece) (depth + 1 + stack'.length) u := by
  fun_induction openAfter? stack t generalizing piece with
  | case1 =>
    obtain rfl := Option.some.inj h
    rfl
  | case2 stack c rest hc ih =>
    rw [List.cons_append, splitFrom, if_neg (by simp), if_pos hc, List.reverse_cons,
      List.append_assoc, List.singleton_append, ← ih h, List.length_cons]
    rfl
  | case3 => simp at h
  | case4 c rest hc hclose o outer hfits ih =>
    rw [List.cons_append, splitFrom, if_neg (by simp), if_neg hc, if_pos hclose, List.reverse_cons,
      List.append_assoc, List.singleton_append, ← ih h, List.length_cons]
    rfl
  | case5 => simp at h
  | case6 stack c rest hc hclose ih =>
    rw [List.cons_append, splitFrom, if_neg (by simp), if_neg hc, if_neg hclose, List.reverse_cons,
      List.append_assoc, List.singleton_append, ← ih h]

/-- The brackets balance and every comma stands inside them. -/
structure Sealed (t : Text) : Prop where
  balanced : isBalanced t = true
  unsplit : ∀ piece depth u, splitFrom piece depth (t ++ u) = splitFrom (t.reverse ++ piece) depth u

theorem Sealed.append (ht : Sealed t) (hu : Sealed u) : Sealed (t ++ u) := by
  refine ⟨isBalanced_append ht.balanced hu.balanced, fun piece depth v => ?_⟩
  rw [List.append_assoc, ht.unsplit, hu.unsplit, List.reverse_append, List.append_assoc]

/-- Neither a bracket nor a comma. -/
def IsPlain (c : Char) : Prop := isOpening c = false ∧ isClosing c = false ∧ c ≠ ','

/-- A class without brackets and commas is one of plain characters. -/
theorem isPlain_of_class {p : Char → Bool}
    (hp : ['(', ')', '[', ']', '\x7b', '\x7d', ','].any p = false) (hc : p c = true) :
    IsPlain c := by
  have hne : ∀ d ∈ ['(', ')', '[', ']', '\x7b', '\x7d', ','], c ≠ d := by
    rintro d hd rfl
    exact List.any_eq_false.mp hp c hd hc
  simp_all [IsPlain, isOpening, isClosing]

theorem sealed_of_plain (h : ∀ c ∈ t, IsPlain c) : Sealed t := by
  refine ⟨isBalanced_iff.mpr (openAfter?_of_plain fun c hc => ⟨(h c hc).1, (h c hc).2.1⟩),
    fun piece depth u => ?_⟩
  induction t generalizing piece with
  | nil => rfl
  | cons c t ih =>
    obtain ⟨⟨ho, hc, hcomma⟩, ht⟩ := List.forall_mem_cons.mp h
    simp [splitFrom, ho, hc, hcomma, ih ht]

theorem sealed_bracketed (hpair : closing? o = some c) (ht : isBalanced t = true) :
    Sealed (o :: (t ++ [c])) := by
  refine ⟨isBalanced_bracketed hpair ht, fun piece depth u => ?_⟩
  obtain ⟨ho, hc, hc', hcomma, hcomma'⟩ := of_closing? hpair
  have hinner : splitFrom (o :: piece) (depth + 1) (t ++ c :: u) =
      splitFrom (t.reverse ++ o :: piece) (depth + 1) (c :: u) :=
    splitFrom_append (isBalanced_iff.mp ht)
  simp [splitFrom, ho, hc, hc', hcomma, hcomma', hinner]

/-! ### Arguments -/

/-- Commas between sealed texts are what splits them. -/
theorem splitFrom_join {ts : List Text} (hts : ∀ t ∈ ts, Sealed t) (hne : ts ≠ []) :
    splitFrom [] 0 (Text.join [','] ts) = ts := by
  have hlast : ∀ {t : Text}, Sealed t → splitFrom [] 0 t = [t] := fun ht => by
    simpa [splitFrom] using ht.unsplit [] 0 []
  induction ts with
  | nil => exact absurd rfl hne
  | cons t ts ih =>
    obtain ⟨ht, hts⟩ := List.forall_mem_cons.mp hts
    cases ts with
    | nil => exact hlast ht
    | cons u ts =>
      have hcomma : splitFrom t.reverse 0 ([','] ++ Text.join [','] (u :: ts)) =
          t :: splitFrom [] 0 (Text.join [','] (u :: ts)) := by
        simp [splitFrom]
      rw [Text.join, List.append_assoc, ht.unsplit, List.append_nil, hcomma, ih hts (by simp)]
      simp

theorem isBalanced_join {ts : List Text} (hts : ∀ t ∈ ts, Sealed t) :
    isBalanced (Text.join [','] ts) = true := by
  have hcomma : isBalanced [','] = true := by decide
  induction ts with
  | nil => rfl
  | cons t ts ih =>
    obtain ⟨ht, hts⟩ := List.forall_mem_cons.mp hts
    cases ts with
    | nil => exact ht.balanced
    | cons u ts =>
      exact isBalanced_append (isBalanced_append ht.balanced hcomma) (ih hts)

/-- The partner of a round bracket stands behind the balanced text after it. -/
theorem partner?_of_isBalanced (pre : Text) (ht : isBalanced t = true) :
    partner? (pre ++ '(' :: (t ++ ')' :: u)) pre.length = some (pre.length + 1 + t.length) := by
  have hinner : partnerFrom 1 (pre.length + 1) (t ++ ')' :: u) =
      partnerFrom 1 (pre.length + 1 + t.length) (')' :: u) :=
    partnerFrom_append (isBalanced_iff.mp ht)
  rw [partner?, List.drop_left]
  simp [partnerFrom, hinner]

theorem slice_between (pre : Text) : Text.slice (pre ++ o :: (t ++ c :: u)) (pre.length + 1)
    (pre.length + 1 + t.length) = t := by
  have hinner := Text.slice_append (pre ++ [o]) t (c :: u)
  rwa [List.length_append, List.append_assoc] at hinner

/-- The call ends behind that partner, and its arguments are those of the text in between. -/
theorem callExtent_of_isBalanced (pre : Text) (ht : isBalanced t = true) :
    callExtent (pre ++ '(' :: (t ++ ')' :: u)) pre.length =
      (countArguments t, pre.length + 1 + t.length + 1) := by
  rw [callExtent, partner?_of_isBalanced pre ht]
  simp only [slice_between]

/-- A call has as many arguments as texts stand between the commas outside brackets. -/
theorem argumentCount_join (pre u : Text) {ts : List Text}
    (hts : ∀ t ∈ ts, Sealed t ∧ Text.isBlankText t = false) (hne : ts ≠ []) :
    argumentCount (pre ++ '(' :: (Text.join [','] ts ++ ')' :: u)) pre.length = ts.length := by
  have hsealed : ∀ t ∈ ts, Sealed t := fun t ht => (hts t ht).1
  have hsplit := splitFrom_join hsealed hne
  obtain ⟨t, ts, rfl⟩ := List.exists_cons_of_ne_nil hne
  have hblank : Text.isBlankText (Text.join [','] (t :: ts)) = false := by
    have ht := (hts t List.mem_cons_self).2
    cases ts with
    | nil => exact ht
    | cons u ts =>
      simp only [Text.isBlankText, Text.join, List.all_append, Bool.and_eq_false_iff] at ht ⊢
      exact Or.inl (Or.inl ht)
  rw [argumentCount, callExtent_of_isBalanced pre (isBalanced_join hsealed), countArguments, hblank,
    if_neg (by simp), splitCommas, hsplit]
  have hparts : (t :: ts).map Text.strip ≠ [[]] := by
    intro h
    have hblank := Text.strip_eq_nil.mp (List.cons.inj h).1
    simp [(hts t List.mem_cons_self).2] at hblank
  split
  · exact absurd ‹_› hparts
  · exact List.length_map _

end Formulary.Bracket
