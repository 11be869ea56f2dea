import Formulary.Proofs.Bracket.Fault

/-! # Counting instead of matching

The partner of a round bracket is found by counting round and square brackets, and the arguments
of a call by counting commas outside brackets of all kinds. On balanced text both agree with the
stack: the partner is the bracket that takes this one off it, and the commas counted are those
with one bracket more open than before the call.
-/

namespace Formulary.Bracket

open Text (Spaced)

variable {t u pre mid post piece : Text} {c o : Char} {i m k : Nat} {stack stack' : List Char}

/-- The bracket at `i` is on top of the stack before position `m`, and the one there takes it
off. -/
def Pops (t : Text) (i m : Nat) : Prop :=
  ∃ o c outer, marks? (t.take m) = some ((o, i) :: outer) ∧ t[m]? = some c ∧
    closing? o = some c

/-- How many brackets are open before position `j`, those of the stack included. -/
def height (stack : List Char) (t : Text) (j : Nat) : Nat :=
  ((openAfter? stack (t.take j)).getD []).length

/-- The number of commas between `i` and `m` with one bracket more open than before `i`. -/
def separators (t : Text) (i m : Nat) : Nat :=
  (List.range m).countP fun j =>
    i < j && t[j]? == some ',' && height [] t j == height [] t i + 1

/-! ### Partners -/

/-- Between a bracket and the one that takes it off the stack, the text is balanced. -/
theorem Pops.exists_split (h : Pops t i m) :
    ∃ pre o mid c post, t = pre ++ o :: (mid ++ c :: post) ∧ pre.length = i ∧
      i + 1 + mid.length = m ∧ closing? o = some c ∧ isBalanced mid = true := by
  obtain ⟨o, c, outer, hmarks, hat, hpair⟩ := h
  obtain ⟨pre, mid, htake, hlen, -, hmid⟩ := exists_of_mark [] hmarks
  have hlt := (List.getElem?_eq_some_iff.mp hat).1
  have hm : (t.take m).length = m := List.length_take_of_le (Nat.le_of_lt hlt)
  refine ⟨pre, o, mid, c, t.drop (m + 1), ?_, hlen, ?_, hpair, isBalanced_iff.mpr hmid⟩
  · rw [← List.cons_append, ← List.append_assoc, ← htake]
    exact eq_take_cons_drop hat
  · rw [htake, List.length_append, List.length_cons] at hm
    omega

theorem Moves.append {above above' : List (Char × Nat)} (h : Moves i c above above')
    (below : List (Char × Nat)) : Moves i c (above ++ below) (above' ++ below) := by
  cases h with
  | opening h => exact .opening h
  | closing h => exact .closing h
  | plain h h' => exact .plain h h'

/-- What lies below the marks plays no part. -/
theorem exists_marks_above (i : Nat) (above below : List (Char × Nat))
    (h : openAfter? (above.map (·.1)) t = some stack') :
    ∃ above', above'.map (·.1) = stack' ∧
      marksFrom? (above ++ below) i t = some (above' ++ below) := by
  induction t generalizing above i with
  | nil => exact ⟨above, Option.some.inj h, rfl⟩
  | cons c t ih =>
    rcases moves_or_stops above i c with ⟨next, hmove⟩ | ⟨-, hstop⟩
    · rw [hmove.openAfter?] at h
      obtain ⟨above', hstack, hmarks⟩ := ih (i + 1) next h
      exact ⟨above', hstack, ((hmove.append below).marksFrom? t).trans hmarks⟩
    · rw [(hstop t).2.1] at h
      cases h

/-- A pair is where a bracket is put on the stack and where it is taken off. -/
theorem Partners.pops (h : Partners t i m) (ht : Extendable t) : Pops t i m := by
  obtain ⟨pre, o, mid, c, post, rfl, rfl, rfl, hpair, hnested⟩ := h
  have htake : (pre ++ o :: (mid ++ c :: post)).take (pre.length + 1 + mid.length) =
      pre ++ o :: mid := by
    rw [Nat.add_assoc, List.take_length_add_append, Nat.add_comm 1, List.take_succ_cons,
      List.take_left]
  have hat : (pre ++ o :: (mid ++ c :: post))[pre.length + 1 + mid.length]? = some c := by
    rw [Nat.add_assoc, List.getElem?_append_right (Nat.le_add_right _ _), Nat.add_sub_cancel_left,
      Nat.add_comm 1, List.getElem?_cons_succ, List.getElem?_append_right (Nat.le_refl _),
      Nat.sub_self, List.getElem?_cons_zero]
  obtain ⟨outer, houter⟩ := extendable_iff_marks.mp (ht.take pre.length)
  rw [List.take_left] at houter
  obtain ⟨above, habove, hmarks⟩ := exists_marks_above (pre.length + 1) []
    ((o, pre.length) :: outer) hnested.openAfter?_of_brackets
  obtain rfl := List.map_eq_nil_iff.mp habove
  refine ⟨o, c, outer, ?_, hat, hpair⟩
  rw [htake, marks?, marksFrom?_append, Nat.zero_add]
  rw [marks?] at houter
  rw [houter, Option.bind_some, (Moves.opening (of_closing? hpair).1).marksFrom?]
  exact hmarks

/-- In balanced text each bracket that opens is taken off the stack. -/
theorem exists_pops (hbalanced : isBalanced t = true) (hat : t[i]? = some o)
    (ho : isOpening o = true) : ∃ m, Pops t i m := by
  have hopen := isBalanced_iff.mp hbalanced
  have ht : Extendable t := extendable_iff.mpr ⟨[], hopen⟩
  obtain ⟨marks, hmarks⟩ := extendable_iff_marks.mp ht
  rw [openAfter?_of_marks? hmarks, Option.some.injEq, List.map_eq_nil_iff] at hopen
  subst hopen
  by_contra hnone
  have hu : Unclosed t i := ⟨⟨o, hat, ho⟩, fun m hm => hnone ⟨m, hm.pops ht⟩⟩
  obtain ⟨o', hin⟩ := mark_of_unclosed hmarks hu
  exact absurd hin List.not_mem_nil

theorem partner?_of_pops (h : Pops t i m) (hat : t[i]? = some '(') : partner? t i = some m := by
  obtain ⟨pre, o, mid, c, post, rfl, rfl, rfl, hpair, hmid⟩ := h.exists_split
  obtain rfl : o = '(' := by simpa using hat
  obtain rfl : ')' = c := Option.some.inj hpair
  exact partner?_of_isBalanced pre hmid

/-! ### Commas -/

theorem height_zero (stack : List Char) (t : Text) : height stack t 0 = stack.length := rfl

/-- The number of pieces is one more than that of the commas outside brackets. -/
theorem length_splitFrom (piece : Text) (h : openAfter? stack u = some stack') :
    (splitFrom piece stack.length u).length =
      (List.range u.length).countP (fun k => u[k]? == some ',' && height stack u k == 0) + 1 := by
  induction u generalizing stack piece with
  | nil => rfl
  | cons c u ih =>
    -- the first character counts by itself, and the rest with the stack that it leaves
    have hrest : ∀ {next : List Char}, (∀ v, openAfter? stack (c :: v) = openAfter? next v) →
        (List.range (c :: u).length).countP
            (fun k => (c :: u)[k]? == some ',' && height stack (c :: u) k == 0) =
          (List.range u.length).countP (fun k => u[k]? == some ',' && height next u k == 0) +
            if c = ',' ∧ stack.length = 0 then 1 else 0 := by
      intro next hnext
      have hheight : ∀ k, height stack (c :: u) (k + 1) = height next u k := fun k => by
        rw [height, List.take_succ_cons, hnext, height]
      rw [List.length_cons, List.range_succ_eq_map, List.countP_cons, List.countP_map]
      simp [Function.comp_def, hheight, height_zero]
    cases ho : isOpening c with
    | true =>
      have hcomma : c ≠ ',' := by rintro rfl; simp [isOpening] at ho
      rw [openAfter?_opening ho] at h
      rw [hrest fun v => openAfter?_opening ho, splitFrom, if_neg (by simp [hcomma]), if_pos ho]
      simpa [hcomma] using ih (c :: piece) h
    | false =>
      cases hc : isClosing c with
      | true =>
        have hcomma : c ≠ ',' := by rintro rfl; simp [isClosing] at hc
        obtain ⟨o, outer, rfl, hpair, h⟩ := exists_of_openAfter?_closing ho hc h
        rw [hrest fun v => openAfter?_closing hpair, splitFrom, if_neg (by simp [hcomma]),
          if_neg (by simp [ho]), if_pos hc]
        simpa [hcomma] using ih (c :: piece) h
      | false =>
        rw [openAfter?_plain ho hc] at h
        rw [hrest fun v => openAfter?_plain ho hc, splitFrom]
        by_cases hcomma : c = ',' ∧ stack.length = 0
        · obtain ⟨rfl, hempty⟩ := hcomma
          obtain rfl := List.length_eq_zero_iff.mp hempty
          simpa using ih [] h
        · rw [if_neg (by simpa using hcomma), if_neg (by simp [ho]), if_neg (by simp [hc]),
            if_neg hcomma]
          exact ih (c :: piece) h

/-- Inside a call the heights are those of the text between its brackets, above those outside. -/
theorem separators_split (hpre : openAfter? [] pre = some stack) (hmid : isBalanced mid = true) :
    separators (pre ++ '(' :: (mid ++ c :: post)) pre.length (pre.length + 1 + mid.length) =
      (List.range mid.length).countP fun k => mid[k]? == some ',' && height [] mid k == 0 := by
  have hhere : height [] (pre ++ '(' :: (mid ++ c :: post)) pre.length = stack.length := by
    simp [height, hpre]
  have hinside : ∀ k ≤ mid.length,
      height [] (pre ++ '(' :: (mid ++ c :: post)) (pre.length + 1 + k) =
        height [] mid k + (stack.length + 1) := by
    intro k hk
    obtain ⟨above, habove⟩ : ∃ above, openAfter? [] (mid.take k) = some above :=
      exists_openAfter? (u := mid.drop k) (by rwa [List.take_append_drop])
    have htake : (pre ++ '(' :: (mid ++ c :: post)).take (pre.length + 1 + k) =
        pre ++ '(' :: mid.take k := by
      rw [Nat.add_assoc, List.take_length_add_append, Nat.add_comm 1, List.take_succ_cons,
        List.take_append_of_le_length hk]
    have hopen := openAfter?_append_stack ('(' :: stack) habove
    rw [height, htake, openAfter?_append, hpre, Option.bind_some, openAfter?_opening rfl]
    rw [List.nil_append] at hopen
    rw [hopen, height, habove]
    simp
  rw [separators, List.range_add, List.countP_append, List.countP_map,
    List.countP_eq_zero.mpr, Nat.zero_add]
  · apply List.countP_congr
    intro k hk
    rw [List.mem_range] at hk
    have hget : (pre ++ '(' :: (mid ++ c :: post))[pre.length + 1 + k]? = mid[k]? := by
      rw [Nat.add_assoc, List.getElem?_append_right (Nat.le_add_right _ _), Nat.add_sub_cancel_left,
        Nat.add_comm 1, List.getElem?_cons_succ, List.getElem?_append_left hk]
    simp only [Function.comp_apply, hget, hhere, hinside k (Nat.le_of_lt hk)]
    have hafter : pre.length < pre.length + 1 + k := by omega
    simp [hafter]
  · intro j hj
    have hbefore : ¬ pre.length < j := by
      rw [List.mem_range] at hj
      omega
    simp [hbefore]

/-! ### Parts -/

theorem splitFrom_ne_nil (piece : Text) (depth : Nat) (u : Text) :
    splitFrom piece depth u ≠ [] := by
  induction u generalizing piece depth with
  | nil => simp [splitFrom]
  | cons c u ih =>
    rw [splitFrom]
    split
    · simp
    · split
      · exact ih _ _
      · split <;> exact ih _ _

/-- The pieces put together with commas are the text. -/
theorem join_splitFrom (piece : Text) (depth : Nat) (u : Text) :
    Text.join [','] (splitFrom piece depth u) = piece.reverse ++ u := by
  induction u generalizing piece depth with
  | nil => simp [splitFrom, Text.join]
  | cons c u ih =>
    rw [splitFrom]
    split
    case isTrue hc =>
      obtain ⟨rfl, -⟩ : c = ',' ∧ depth = 0 := by simpa using hc
      obtain ⟨p, ps, hsplit⟩ := List.exists_cons_of_ne_nil (splitFrom_ne_nil [] 0 u)
      have hjoin := ih [] 0
      rw [hsplit] at hjoin ⊢
      rw [Text.join, hjoin]
      · simp
      · simp
    case isFalse =>
      split
      · simp [ih]
      · split <;> simp [ih]

theorem spaced_strip (t : Text) : Spaced [Text.strip t] t := by
  obtain ⟨before, behind, ht, hbefore, hbehind⟩ := Text.strip_split t
  have h : Spaced [Text.strip t] (before ++ (Text.strip t ++ behind)) :=
    .cons hbefore (.nil hbehind)
  rwa [← ht] at h

/-- Pieces put together are their stripped texts with blanks next to the commas and at the ends. -/
theorem spaced_join (ts : List Text) :
    Spaced ((ts.map Text.strip).intersperse [',']) (Text.join [','] ts) := by
  induction ts with
  | nil => exact .nil (by simp [Text.join])
  | cons t ts ih =>
    cases ts with
    | nil => exact spaced_strip t
    | cons t' ts =>
      rw [Text.join, List.append_assoc]
      · exact (spaced_strip t).append ih.front
      · simp

theorem spaced_splitCommas (t : Text) : Spaced ((splitCommas t).intersperse [',']) t := by
  have hjoin := join_splitFrom [] 0 t
  have hspaced := spaced_join (splitFrom [] 0 t)
  rw [hjoin, List.reverse_nil, List.nil_append] at hspaced
  unfold splitCommas
  split
  case h_1 hblank =>
    rw [hblank] at hspaced
    obtain ⟨blanks, u, rfl, hblanks, hu⟩ := hspaced.of_cons
    exact .nil (List.forall_mem_append.mpr ⟨hblanks, hu.of_nil⟩)
  case h_2 => exact hspaced

/-- A text that is not blank has one argument more than commas. -/
theorem countArguments_eq (h : isBalanced t = true) : countArguments t =
    if Text.isBlankText t then 0
    else (List.range t.length).countP (fun k => t[k]? == some ',' && height [] t k == 0) + 1 := by
  rw [countArguments]
  split
  case isTrue => rfl
  case isFalse hblank =>
    rw [← length_splitFrom [] (isBalanced_iff.mp h), List.length_nil, splitCommas]
    split
    case h_1 hparts =>
      obtain ⟨p, hp, hstrip⟩ := List.map_eq_singleton_iff.mp hparts
      have hjoin := join_splitFrom [] 0 t
      rw [hp] at hjoin
      obtain rfl : p = t := hjoin
      exact absurd (Text.strip_eq_nil.mp hstrip) hblank
    case h_2 => exact List.length_map _

/-! ### Calls -/

/-- On balanced text counting finds the partner that the stack finds, and behind it the call ends.
Its arguments are the parts between the commas right inside it, blanks around them aside. -/
theorem counting_agrees (hbalanced : isBalanced t = true) (hat : t[i]? = some '(') :
    ∃ m, (∀ m', Pops t i m' ↔ m' = m) ∧ partner? t i = some m ∧
      callExtent t i =
        (if Text.isBlankText (Text.slice t (i + 1) m) then 0 else separators t i m + 1, m + 1) ∧
      Spaced ((splitCommas (Text.slice t (i + 1) m)).intersperse [','])
        (Text.slice t (i + 1) m) := by
  obtain ⟨m, hm⟩ := exists_pops hbalanced hat rfl
  have hpartner := partner?_of_pops hm hat
  refine ⟨m, fun m' => ⟨fun hm' => ?_, fun hm' => hm' ▸ hm⟩, hpartner, ?_, spaced_splitCommas _⟩
  · exact Option.some.inj ((partner?_of_pops hm' hat).symm.trans hpartner)
  · obtain ⟨pre, o, mid, c, post, rfl, rfl, rfl, hpair, hmid⟩ := hm.exists_split
    obtain rfl : o = '(' := by simpa using hat
    obtain rfl : ')' = c := Option.some.inj hpair
    obtain ⟨stack, hstack⟩ := exists_openAfter? hbalanced
    rw [callExtent_of_isBalanced pre hmid, countArguments_eq hmid, separators_split hstack hmid,
      slice_between]

/-- Of the four commas two stand right inside the call. -/
theorem counting_agrees_for_braces :
    let t := text "f( a ,(b,c), \x7bd,e\x7d )"
    isBalanced t = true ∧ t[1]? = some '(' ∧ Pops t 1 19 ∧ partner? t 1 = some 19 ∧
      separators t 1 19 = 2 ∧ callExtent t 1 = (3, 20) ∧
      splitCommas (Text.slice t 2 19) = ["a", "(b,c)", "\x7bd,e\x7d"].map text ∧
      Spaced ((splitCommas (Text.slice t 2 19)).intersperse [',']) (Text.slice t 2 19) := by
  intro t
  have hbalanced : isBalanced t = true := by decide +kernel
  have hat : t[1]? = some '(' := by decide +kernel
  have hfound : partner? t 1 = some 19 := by decide +kernel
  have hcommas : separators t 1 19 = 2 := by decide +kernel
  have hblank : Text.isBlankText (Text.slice t 2 19) = false := by decide +kernel
  obtain ⟨m, hpops, hpartner, hextent, hspaced⟩ := counting_agrees hbalanced hat
  obtain rfl : m = 19 := Option.some.inj (hpartner.symm.trans hfound)
  refine ⟨hbalanced, hat, (hpops 19).mpr rfl, hpartner, hcommas, ?_, by decide +kernel, hspaced⟩
  rw [hextent, hblank, hcommas]
  rfl

end Formulary.Bracket
