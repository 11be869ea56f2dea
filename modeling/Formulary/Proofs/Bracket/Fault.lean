import Mathlib.Data.List.Induction
import Formulary.Proofs.Formula.Enclosed

/-! # Well-nested brackets and where they fail

The brackets of a text are well nested when they pair off, each pair of one kind and with
well-nested brackets inside. The stack decides it: a text is balanced exactly when its brackets
are well nested, and it can be continued to a balanced one exactly as long as no closing bracket
in it is refused.

With the positions of the open brackets on the stack, each opening bracket of a text is either
closed or still on the stack. So the fault of a text that is not balanced is the first closing
bracket that no continuation can mend, or else the first bracket that is never closed.
-/

namespace Formulary.Bracket

variable {t u pre rest : Text} {c o : Char} {i m p : Nat} {stack stack' : List Char}
  {marks marks' outer : List (Char × Nat)}

/-- What is left of a text without the other characters. -/
def brackets (t : Text) : Text := t.filter fun c => isOpening c || isClosing c

/-- Words of pairs that follow one another, each around such a word. -/
inductive Nested : Text → Prop
  | nil : Nested []
  | pair {o c : Char} {t u : Text} (hpair : closing? o = some c) (ht : Nested t) (hu : Nested u) :
      Nested (o :: (t ++ c :: u))

/-- Something can follow with which the brackets are well nested. -/
def Extendable (t : Text) : Prop := ∃ u, Nested (brackets (t ++ u))

/-! ### The stack -/

theorem brackets_cons (h : isOpening c = true ∨ isClosing c = true) :
    brackets (c :: t) = c :: brackets t :=
  List.filter_cons_of_pos (by simpa using h)

theorem brackets_cons_of_plain (h : isOpening c = false) (h' : isClosing c = false) :
    brackets (c :: t) = brackets t :=
  List.filter_cons_of_neg (by simp [h, h'])

theorem openAfter?_opening (h : isOpening c = true) :
    openAfter? stack (c :: t) = openAfter? (c :: stack) t := by
  simp [openAfter?, h]

theorem openAfter?_closing (hpair : closing? o = some c) :
    openAfter? (o :: stack) (c :: t) = openAfter? stack t := by
  obtain ⟨-, hc, hc', -, -⟩ := of_closing? hpair
  simp [openAfter?, hc, hc', hpair]

theorem openAfter?_plain (h : isOpening c = false) (h' : isClosing c = false) :
    openAfter? stack (c :: t) = openAfter? stack t := by
  simp [openAfter?, h, h']

/-- A closing bracket takes one off the stack that it fits. -/
theorem exists_of_openAfter?_closing (h : isOpening c = false) (h' : isClosing c = true)
    (hopen : openAfter? stack (c :: t) = some stack') :
    ∃ o outer, stack = o :: outer ∧ closing? o = some c ∧ openAfter? outer t = some stack' := by
  cases stack with
  | nil => simp [openAfter?, h, h'] at hopen
  | cons o outer =>
    by_cases hpair : closing? o = some c
    · exact ⟨o, outer, rfl, hpair, (openAfter?_closing hpair).symm.trans hopen⟩
    · simp [openAfter?, h, h', hpair] at hopen

theorem openAfter?_brackets : openAfter? stack (brackets t) = openAfter? stack t := by
  fun_induction openAfter? stack t with
  | case1 => rfl
  | case2 stack c rest hc ih => rw [brackets_cons (.inl hc), openAfter?_opening hc, ih]
  | case3 c rest hc hclose => simp [brackets_cons (.inr hclose), openAfter?, hc, hclose]
  | case4 c rest hc hclose o outer hfits ih =>
    rw [brackets_cons (.inr hclose), openAfter?_closing (beq_iff_eq.mp hfits), ih]
  | case5 c rest hc hclose o outer hfits =>
    simp [brackets_cons (.inr hclose), openAfter?, hc, hclose, hfits]
  | case6 stack c rest hc hclose ih =>
    rw [brackets_cons_of_plain (by simpa using hc) (by simpa using hclose), ih]

/-- Well-nested brackets leave the stack as it is. -/
theorem Nested.openAfter? (h : Nested t) : Bracket.openAfter? stack t = some stack := by
  induction h generalizing stack with
  | nil => rfl
  | @pair o c t u hpair _ _ ht hu =>
    rw [openAfter?_opening (of_closing? hpair).1, openAfter?_append, ht, Option.bind_some,
      openAfter?_closing hpair, hu]

/-- Closes the brackets of a stack one by one, with well-nested ones in between. -/
inductive Closes : List Char → Text → Prop
  | last {t : Text} (h : Nested t) : Closes [] t
  | next {o c : Char} {stack : List Char} {t u : Text} (ht : Nested t)
      (hpair : closing? o = some c) (hu : Closes stack u) : Closes (o :: stack) (t ++ c :: u)

/-- A pair in front is one of the well-nested ones in front. -/
theorem Closes.pair (hpair : closing? o = some c) (ht : Nested t) (hu : Closes stack u) :
    Closes stack (o :: (t ++ c :: u)) := by
  cases hu with
  | last hu => exact .last (.pair hpair ht hu)
  | @next o' c' stack t' u' ht' hpair' hu' =>
    have h : Closes (o' :: stack) ((o :: (t ++ c :: t')) ++ c' :: u') :=
      .next (.pair hpair ht ht') hpair' hu'
    simpa using h

theorem closes_of_openAfter? (h : openAfter? stack t = some []) : Closes stack (brackets t) := by
  induction t generalizing stack with
  | nil =>
    obtain rfl := Option.some.inj h
    exact .last .nil
  | cons c t ih =>
    cases ho : isOpening c with
    | true =>
      rw [openAfter?_opening ho] at h
      rw [brackets_cons (.inl ho)]
      generalize brackets t = u at ih ⊢
      cases ih h with
      | next ht hpair hu => exact .pair hpair ht hu
    | false =>
      cases hc : isClosing c with
      | true =>
        obtain ⟨o, outer, rfl, hpair, h⟩ := exists_of_openAfter?_closing ho hc h
        rw [brackets_cons (.inr hc)]
        exact .next .nil hpair (ih h)
      | false =>
        rw [openAfter?_plain ho hc] at h
        rw [brackets_cons_of_plain ho hc]
        exact ih h

/-- The stack decides whether the brackets are well nested. -/
theorem isBalanced_iff_nested : isBalanced t = true ↔ Nested (brackets t) := by
  rw [isBalanced_iff]
  constructor
  · intro h
    cases closes_of_openAfter? h with
    | last h => exact h
  · intro h
    rw [← openAfter?_brackets]
    exact h.openAfter?

theorem Nested.openAfter?_of_brackets (h : Nested (brackets t)) :
    Bracket.openAfter? stack t = some stack := by
  rw [← openAfter?_brackets, h.openAfter?]

/-! ### Continuations -/

/-- Only brackets that have a closing one are put on the stack. -/
theorem isOpening_of_mem_openAfter? (h : openAfter? stack t = some stack')
    (hstack : ∀ o ∈ stack, isOpening o = true) : ∀ o ∈ stack', isOpening o = true := by
  fun_induction openAfter? stack t with
  | case1 =>
    obtain rfl := Option.some.inj h
    exact hstack
  | case2 stack c rest hc ih => exact ih h (List.forall_mem_cons.mpr ⟨hc, hstack⟩)
  | case3 => simp at h
  | case4 c rest hc hclose o outer hfits ih => exact ih h (List.forall_mem_cons.mp hstack).2
  | case5 => simp at h
  | case6 stack c rest hc hclose ih => exact ih h hstack

theorem exists_closing (h : isOpening o = true) : ∃ c, closing? o = some c := by
  simp only [isOpening, Bool.or_eq_true, beq_iff_eq] at h
  rcases h with (rfl | rfl) | rfl <;> exact ⟨_, rfl⟩

/-- What is open can be closed. -/
theorem exists_closed (hstack : ∀ o ∈ stack, isOpening o = true) :
    ∃ u, openAfter? stack u = some [] := by
  induction stack with
  | nil => exact ⟨[], rfl⟩
  | cons o stack ih =>
    obtain ⟨ho, hstack⟩ := List.forall_mem_cons.mp hstack
    obtain ⟨u, hu⟩ := ih hstack
    obtain ⟨c, hpair⟩ := exists_closing ho
    exact ⟨c :: u, (openAfter?_closing hpair).trans hu⟩

/-- No closing bracket is refused in the beginning of a balanced text. -/
theorem exists_openAfter? (h : isBalanced (t ++ u) = true) :
    ∃ stack, openAfter? [] t = some stack := by
  rw [isBalanced_iff, openAfter?_append] at h
  obtain ⟨stack, hstack, -⟩ := Option.bind_eq_some_iff.mp h
  exact ⟨stack, hstack⟩

theorem extendable_iff : Extendable t ↔ ∃ stack, openAfter? [] t = some stack := by
  simp only [Extendable, ← isBalanced_iff_nested]
  constructor
  · rintro ⟨u, h⟩
    exact exists_openAfter? h
  · rintro ⟨stack, hstack⟩
    obtain ⟨u, hu⟩ := exists_closed (isOpening_of_mem_openAfter? hstack (by simp))
    exact ⟨u, by rw [isBalanced_iff, openAfter?_append, hstack, Option.bind_some, hu]⟩

/-! ### Pairs -/

/-- The bracket at `i` and the one at `m` are a pair: of one kind, with well-nested brackets
between them. -/
def Partners (t : Text) (i m : Nat) : Prop :=
  ∃ pre o mid c post, t = pre ++ o :: (mid ++ c :: post) ∧ pre.length = i ∧
    i + 1 + mid.length = m ∧ closing? o = some c ∧ Nested (brackets mid)

/-- The bracket at `p` opens, and nothing closes it. -/
def Unclosed (t : Text) (p : Nat) : Prop :=
  (∃ o, t[p]? = some o ∧ isOpening o = true) ∧ ∀ m, ¬ Partners t p m

/-! ### The stack with positions -/

/-- The open brackets with their positions after a text that starts at position `i`, the innermost
first. -/
def marksFrom? (marks : List (Char × Nat)) (i : Nat) : Text → Option (List (Char × Nat))
  | [] => some marks
  | c :: rest =>
    if isOpening c then marksFrom? ((c, i) :: marks) (i + 1) rest
    else if isClosing c then
      match marks with
      | [] => none
      | (o, _) :: outer =>
        if closing? o == some c then marksFrom? outer (i + 1) rest else none
    else marksFrom? marks (i + 1) rest

def marks? (t : Text) : Option (List (Char × Nat)) := marksFrom? [] 0 t

/-- What one character at position `i` does to the marks, unless it does not fit. -/
inductive Moves (i : Nat) : Char → List (Char × Nat) → List (Char × Nat) → Prop
  | opening {c : Char} {marks : List (Char × Nat)} (h : isOpening c = true) :
      Moves i c marks ((c, i) :: marks)
  | closing {c o : Char} {q : Nat} {marks : List (Char × Nat)} (h : closing? o = some c) :
      Moves i c ((o, q) :: marks) marks
  | plain {c : Char} {marks : List (Char × Nat)} (h : isOpening c = false)
      (h' : isClosing c = false) : Moves i c marks marks

theorem Moves.marksFrom? (h : Moves i c marks marks') (t : Text) :
    Bracket.marksFrom? marks i (c :: t) = Bracket.marksFrom? marks' (i + 1) t := by
  cases h with
  | opening h => simp [Bracket.marksFrom?, h]
  | closing h =>
    obtain ⟨-, hc, hc', -, -⟩ := of_closing? h
    simp [Bracket.marksFrom?, hc, hc', h]
  | plain h h' => simp [Bracket.marksFrom?, h, h']

theorem Moves.openAfter? (h : Moves i c marks marks') (t : Text) :
    Bracket.openAfter? (marks.map (·.1)) (c :: t) = Bracket.openAfter? (marks'.map (·.1)) t := by
  cases h with
  | opening h => exact openAfter?_opening h
  | closing h => exact openAfter?_closing h
  | plain h h' => exact openAfter?_plain h h'

theorem Moves.faultFrom (h : Moves i c marks marks') (t : Text) :
    Bracket.faultFrom marks i (c :: t) = Bracket.faultFrom marks' (i + 1) t := by
  cases h with
  | opening h => simp [Bracket.faultFrom, h]
  | closing h =>
    obtain ⟨-, hc, hc', -, -⟩ := of_closing? h
    simp [Bracket.faultFrom, hc, hc', h]
  | plain h h' => simp [Bracket.faultFrom, h, h']

/-- A character moves the marks, or it closes what is not open and the scan ends. -/
theorem moves_or_stops (marks : List (Char × Nat)) (i : Nat) (c : Char) :
    (∃ marks', Moves i c marks marks') ∨ isClosing c = true ∧
      ∀ t, marksFrom? marks i (c :: t) = none ∧ openAfter? (marks.map (·.1)) (c :: t) = none ∧
        faultFrom marks i (c :: t) = some i := by
  cases ho : isOpening c with
  | true => exact .inl ⟨_, .opening ho⟩
  | false =>
    cases hc : isClosing c with
    | false => exact .inl ⟨_, .plain ho hc⟩
    | true =>
      cases marks with
      | nil => exact .inr ⟨rfl, fun t => by simp [marksFrom?, openAfter?, faultFrom, ho, hc]⟩
      | cons mark outer =>
        by_cases hpair : closing? mark.1 = some c
        · exact .inl ⟨outer, .closing hpair⟩
        · exact .inr ⟨rfl, fun t => by simp [marksFrom?, openAfter?, faultFrom, ho, hc, hpair]⟩

theorem exists_of_marksFrom?_cons (h : marksFrom? marks i (c :: t) = some marks') :
    ∃ marks'', Moves i c marks marks'' ∧ marksFrom? marks'' (i + 1) t = some marks' := by
  rcases moves_or_stops marks i c with ⟨marks'', hmove⟩ | ⟨-, hstop⟩
  · exact ⟨marks'', hmove, hmove.marksFrom? t ▸ h⟩
  · rw [(hstop t).1] at h
    cases h

theorem marksFrom?_append :
    marksFrom? marks i (t ++ u) = (marksFrom? marks i t).bind (marksFrom? · (i + t.length) u) := by
  induction t generalizing marks i with
  | nil => rfl
  | cons c t ih =>
    rcases moves_or_stops marks i c with ⟨marks', hmove⟩ | ⟨-, hstop⟩
    · rw [List.cons_append, hmove.marksFrom?, hmove.marksFrom?, ih, List.length_cons,
        Nat.add_assoc, Nat.add_comm 1]
    · rw [List.cons_append, (hstop _).1, (hstop t).1]
      rfl

/-- Without the positions it is the stack. -/
theorem map_marksFrom? :
    (marksFrom? marks i t).map (·.map (·.1)) = openAfter? (marks.map (·.1)) t := by
  induction t generalizing marks i with
  | nil => rfl
  | cons c t ih =>
    rcases moves_or_stops marks i c with ⟨marks', hmove⟩ | ⟨-, hstop⟩
    · rw [hmove.marksFrom?, hmove.openAfter?, ih]
    · rw [(hstop t).1, (hstop t).2.1]
      rfl

theorem openAfter?_of_marks? (h : marks? t = some marks) :
    openAfter? [] t = some (marks.map (·.1)) := by
  rw [← List.map_nil (f := Prod.fst (β := Nat)), ← map_marksFrom? (i := 0)]
  exact congrArg (Option.map _) h

theorem extendable_iff_marks : Extendable t ↔ ∃ marks, marks? t = some marks := by
  rw [extendable_iff, ← List.map_nil (f := Prod.fst (β := Nat)), ← map_marksFrom? (i := 0)]
  constructor
  · rintro ⟨stack, h⟩
    obtain ⟨marks, h, -⟩ := Option.map_eq_some_iff.mp h
    exact ⟨marks, h⟩
  · rintro ⟨marks, h⟩
    exact ⟨_, congrArg (Option.map _) h⟩

/-- A mark parts the text at its bracket; behind it the marks above it are open. -/
theorem exists_of_mark (above : List (Char × Nat))
    (h : marks? t = some (above ++ (o, p) :: outer)) :
    ∃ pre mid, t = pre ++ o :: mid ∧ pre.length = p ∧ marks? pre = some outer ∧
      openAfter? [] mid = some (above.map (·.1)) := by
  induction t using List.reverseRecOn generalizing above with
  | nil => simp [marks?, marksFrom?] at h
  | append_singleton t c ih =>
    rw [marks?, marksFrom?_append, Nat.zero_add] at h
    obtain ⟨marks, hmarks, h⟩ := Option.bind_eq_some_iff.mp h
    obtain ⟨marks', hmove, hlast⟩ := exists_of_marksFrom?_cons h
    obtain rfl := Option.some.inj hlast
    -- the marks before the last character are these, with one more or one less on top
    have hbehind : ∀ before, marks? t = some (before ++ (o, p) :: outer) →
        Moves t.length c before above → ∃ pre mid, t ++ [c] = pre ++ o :: mid ∧ pre.length = p ∧
          marks? pre = some outer ∧ openAfter? [] mid = some (above.map (·.1)) := by
      intro before hbefore hmove
      obtain ⟨pre, mid, rfl, hp, hpre, hmid⟩ := ih before hbefore
      refine ⟨pre, mid ++ [c], by simp, hp, hpre, ?_⟩
      rw [openAfter?_append, hmid, Option.bind_some, hmove.openAfter?]
      rfl
    generalize hall : above ++ (o, p) :: outer = all at hmove
    cases hmove with
    | opening ho =>
      cases above with
      | nil =>
        obtain ⟨hmark, rfl⟩ := List.cons.inj hall
        obtain ⟨rfl, rfl⟩ := Prod.mk.inj hmark
        exact ⟨t, [], rfl, rfl, hmarks, rfl⟩
      | cons mark above =>
        obtain ⟨rfl, rfl⟩ := List.cons.inj hall
        exact hbehind above hmarks (.opening ho)
    | @closing o' q _ hpair =>
      subst hall
      exact hbehind ((o', q) :: above) hmarks (.closing hpair)
    | plain ho hc =>
      subst hall
      exact hbehind above hmarks (.plain ho hc)

/-- A mark stays until its bracket is closed. -/
theorem mem_or_closed (above : List (Char × Nat))
    (h : marksFrom? (above ++ (o, p) :: outer) i rest = some marks) : (o, p) ∈ marks ∨
      ∃ mid c post, rest = mid ++ c :: post ∧ openAfter? (above.map (·.1)) mid = some [] ∧
        closing? o = some c := by
  induction rest generalizing above i with
  | nil =>
    obtain rfl := Option.some.inj h
    exact .inl (by simp)
  | cons c rest ih =>
    obtain ⟨marks', hmove, h⟩ := exists_of_marksFrom?_cons h
    have hbehind : ∀ above', marks' = above' ++ (o, p) :: outer →
        Moves i c above above' → (o, p) ∈ marks ∨ ∃ mid d post, c :: rest = mid ++ d :: post ∧
          openAfter? (above.map (·.1)) mid = some [] ∧ closing? o = some d := by
      rintro above' rfl hmove
      refine (ih above' h).imp_right ?_
      rintro ⟨mid, d, post, rfl, hmid, hpair⟩
      exact ⟨c :: mid, d, post, rfl, (hmove.openAfter? mid).trans hmid, hpair⟩
    generalize hall : above ++ (o, p) :: outer = all at hmove
    cases hmove with
    | opening ho =>
      subst hall
      exact hbehind ((c, i) :: above) rfl (.opening ho)
    | closing hpair =>
      cases above with
      | nil =>
        obtain ⟨hmark, rfl⟩ := List.cons.inj hall
        obtain ⟨rfl, rfl⟩ := Prod.mk.inj hmark
        exact .inr ⟨[], c, rest, rfl, rfl, hpair⟩
      | cons mark above =>
        obtain ⟨rfl, rfl⟩ := List.cons.inj hall
        exact hbehind above rfl (.closing hpair)
    | plain ho hc =>
      subst hall
      exact hbehind above rfl (.plain ho hc)

/-! ### Open and closed brackets -/

theorem isOpening_of_mark (h : marks? t = some marks) (hp : (o, p) ∈ marks) :
    isOpening o = true :=
  isOpening_of_mem_openAfter? (openAfter?_of_marks? h) (by simp) o
    (List.mem_map.mpr ⟨(o, p), hp, rfl⟩)

/-- A bracket that is closed is on the stack no more. -/
theorem not_partners_of_mark (h : marks? t = some marks) (hp : (o, p) ∈ marks) :
    ¬ Partners t p m := by
  obtain ⟨above, outer, rfl⟩ := List.append_of_mem hp
  obtain ⟨pre, mid, rfl, hlen, -, hmid⟩ := exists_of_mark above h
  rintro ⟨pre', o', mid', c, post, ht, hlen', -, hpair, hnested⟩
  obtain ⟨rfl, hrest⟩ := List.append_inj ht (hlen.trans hlen'.symm)
  obtain ⟨-, rfl⟩ := List.cons.inj hrest
  obtain ⟨-, hc, hc', -, -⟩ := of_closing? hpair
  rw [openAfter?_append, isBalanced_iff.mp (isBalanced_iff_nested.mpr hnested)] at hmid
  simp [openAfter?, hc, hc'] at hmid

theorem unclosed_of_mark (h : marks? t = some marks) (hp : (o, p) ∈ marks) : Unclosed t p := by
  refine ⟨⟨o, ?_, isOpening_of_mark h hp⟩, fun m => not_partners_of_mark h hp⟩
  obtain ⟨above, outer, rfl⟩ := List.append_of_mem hp
  obtain ⟨pre, mid, rfl, rfl, -, -⟩ := exists_of_mark above h
  simp

theorem eq_take_cons_drop (h : t[p]? = some c) : t = t.take p ++ c :: t.drop (p + 1) := by
  obtain ⟨hlt, hget⟩ := List.getElem?_eq_some_iff.mp h
  rw [← hget, List.getElem_cons_drop, List.take_append_drop]

/-- A bracket that is never closed is still on the stack. -/
theorem mark_of_unclosed (h : marks? t = some marks) (hu : Unclosed t p) :
    ∃ o, (o, p) ∈ marks := by
  obtain ⟨⟨o, hat, ho⟩, hnone⟩ := hu
  obtain ⟨hlt, -⟩ := List.getElem?_eq_some_iff.mp hat
  have ht := eq_take_cons_drop hat
  have hlen : (t.take p).length = p := List.length_take_of_le (Nat.le_of_lt hlt)
  rw [ht, marks?, marksFrom?_append] at h
  obtain ⟨outer, -, h⟩ := Option.bind_eq_some_iff.mp h
  rw [(Moves.opening ho).marksFrom?, hlen, Nat.zero_add] at h
  rcases mem_or_closed [] h with hin | ⟨mid, c, post, hrest, hmid, hpair⟩
  · exact ⟨o, hin⟩
  · refine absurd ⟨t.take p, o, mid, c, post, ?_, hlen, rfl, hpair, ?_⟩ (hnone _)
    · rw [← hrest, ← ht]
    · exact isBalanced_iff_nested.mp (isBalanced_iff.mpr hmid)

theorem Partners.append (h : Partners t p m) (u : Text) : Partners (t ++ u) p m := by
  obtain ⟨pre, o, mid, c, post, rfl, h⟩ := h
  exact ⟨pre, o, mid, c, post ++ u, by simp, h⟩

/-- The lowest mark is that of the first bracket that is never closed. -/
theorem not_unclosed_of_last {q : Nat} (h : marks? t = some marks)
    (hlast : marks.getLast? = some (o, p)) (hq : q < p) : ¬ Unclosed t q := by
  obtain ⟨above, rfl⟩ := List.getLast?_eq_some_iff.mp hlast
  obtain ⟨pre, mid, rfl, rfl, hpre, -⟩ := exists_of_mark above h
  rintro ⟨⟨o', hat, ho'⟩, hnone⟩
  rw [List.getElem?_append_left hq] at hat
  have hu : Unclosed pre q := ⟨⟨o', hat, ho'⟩, fun m hm => hnone m (hm.append _)⟩
  obtain ⟨o'', hin⟩ := mark_of_unclosed hpre hu
  exact absurd hin List.not_mem_nil

/-! ### The fault -/

theorem faultFrom_of_marks (h : marksFrom? marks i t = some marks') :
    faultFrom marks i t = marks'.getLast?.map (·.2) := by
  induction t generalizing marks i with
  | nil =>
    obtain rfl := Option.some.inj h
    rfl
  | cons c t ih =>
    obtain ⟨marks'', hmove, h⟩ := exists_of_marksFrom?_cons h
    rw [hmove.faultFrom, ih h]

/-- Without marks there is a closing bracket that does not fit, and it is the fault. -/
theorem exists_of_no_marks (h : marksFrom? marks i t = none) :
    ∃ pre c post, t = pre ++ c :: post ∧ isClosing c = true ∧
      (∃ marks', marksFrom? marks i pre = some marks') ∧
      marksFrom? marks i (pre ++ [c]) = none ∧ faultFrom marks i t = some (i + pre.length) := by
  induction t generalizing marks i with
  | nil => cases h
  | cons c t ih =>
    rcases moves_or_stops marks i c with ⟨marks', hmove⟩ | ⟨hc, hstop⟩
    · rw [hmove.marksFrom?] at h
      obtain ⟨pre, d, post, rfl, hd, ⟨marks'', hpre⟩, hnone, hfault⟩ := ih h
      refine ⟨c :: pre, d, post, rfl, hd, ⟨marks'', (hmove.marksFrom? pre).trans hpre⟩,
        (hmove.marksFrom? (pre ++ [d])).trans hnone, ?_⟩
      rw [hmove.faultFrom, hfault, List.length_cons, Nat.add_assoc, Nat.add_comm 1]
    · exact ⟨[], c, t, rfl, hc, ⟨marks, rfl⟩, (hstop []).1, (hstop t).2.2⟩

theorem Extendable.take (h : Extendable t) (k : Nat) : Extendable (t.take k) := by
  obtain ⟨u, hu⟩ := h
  exact ⟨t.drop k ++ u, by rwa [← List.append_assoc, List.take_append_drop]⟩

/-- A text without a fault has well-nested brackets. Where there is a fault, a bracket stands: the
first behind which no continuation helps, or else, if every beginning can be continued, the first
that opens and is never closed. -/
theorem fault_decides (t : Text) :
    (fault? t = none ↔ Nested (brackets t)) ∧ ∀ p, fault? t = some p →
      (∃ c, t[p]? = some c ∧ (isOpening c = true ∨ isClosing c = true)) ∧
      ((¬ Extendable (t.take (p + 1)) ∧ ∀ k ≤ p, Extendable (t.take k)) ∨
        (∀ k, Extendable (t.take k)) ∧ Unclosed t p ∧ ∀ q < p, ¬ Unclosed t q) := by
  refine ⟨?_, fun p hp => ?_⟩
  · rw [← isBalanced_iff_nested, isBalanced, Option.isNone_iff_eq_none]
  · cases hmarks : marks? t with
    | some marks =>
      rw [fault?, faultFrom_of_marks hmarks] at hp
      obtain ⟨⟨o, q⟩, hlast, rfl⟩ := Option.map_eq_some_iff.mp hp
      have hu := unclosed_of_mark hmarks (List.mem_of_getLast? hlast)
      obtain ⟨c, hat, hc⟩ := hu.1
      exact ⟨⟨c, hat, .inl hc⟩, .inr ⟨(extendable_iff_marks.mpr ⟨marks, hmarks⟩).take, hu,
        fun _ => not_unclosed_of_last hmarks hlast⟩⟩
    | none =>
      obtain ⟨pre, c, post, rfl, hc, ⟨marks', hpre⟩, hnone, hfault⟩ := exists_of_no_marks hmarks
      obtain rfl : pre.length = p := by simpa [fault?, hfault] using hp
      have hstop : (pre ++ c :: post).take (pre.length + 1) = pre ++ [c] := by
        rw [List.take_length_add_append, List.take_succ_cons, List.take_zero]
      refine ⟨⟨c, by simp, .inr hc⟩, .inl ⟨?_, fun k hk => ?_⟩⟩
      · rw [hstop, extendable_iff_marks]
        rintro ⟨marks, h⟩
        rw [marks?, hnone] at h
        cases h
      · rw [List.take_append_of_le_length hk]
        exact (extendable_iff_marks.mpr ⟨marks', hpre⟩).take k

/-- A closing bracket of the wrong kind is the fault; without one, it is the first bracket left
open. -/
theorem fault_decides_for_both :
    let wrong := text "[(]"
    let opened := text "[](()"
    fault? wrong = some 2 ∧ ¬ Extendable wrong ∧ (∀ k ≤ 2, Extendable (wrong.take k)) ∧
      fault? opened = some 2 ∧ Unclosed opened 2 ∧ ∀ q < 2, ¬ Unclosed opened q := by
  intro wrong opened
  have hwrong : fault? wrong = some 2 := by decide
  have hopened : fault? opened = some 2 := by decide
  have hnone : marks? wrong = none := by decide
  have hdead : ¬ Extendable wrong := by simp [extendable_iff_marks, hnone]
  have hlive : Extendable opened := extendable_iff_marks.mpr ⟨[('(', 2)], by decide⟩
  refine ⟨hwrong, hdead, ?_, hopened, ?_⟩
  · rcases ((fault_decides wrong).2 2 hwrong).2 with ⟨-, hprefix⟩ | ⟨hall, -⟩
    · exact hprefix
    · exact absurd (hall 3) hdead
  · rcases ((fault_decides opened).2 2 hopened).2 with ⟨hstop, -⟩ | ⟨-, hunclosed⟩
    · exact absurd (hlive.take 3) hstop
    · exact hunclosed

end Formulary.Bracket
