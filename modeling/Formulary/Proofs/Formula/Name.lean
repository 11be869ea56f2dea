import Formulary.Proofs.Text.Classes
import Formulary.Proofs.Text.Run

/-! # Names before brackets

A function's name is read backwards from its bracket. `CallName` lists the three
shapes such a name can have and what must stand before it; `frontName` reads the
same name forwards, so at most one name starts at a place of a text.
-/

namespace Formulary.Formula

open Text (Stops takeWhile_append_stop dropWhile_append_stop)

variable {before rest content name : Text} {c : Char}

/-- The prime marks of a symbol. -/
abbrev marks (n : Nat) : Text := List.replicate n '\''

def isMark (c : Char) : Bool := c == '\''

theorem isMark_of_mem_marks {n : Nat} (h : c ∈ marks n) : isMark c = true := by
  simp [isMark, List.eq_of_mem_replicate h]

theorem takeWhile_isMark (t : Text) : t.takeWhile isMark = marks (t.takeWhile isMark).length := by
  rw [List.eq_replicate_iff]
  refine ⟨rfl, fun c hc => ?_⟩
  simpa [isMark] using List.mem_takeWhile_imp hc

/-- Read backwards, the last `_{` opens this content, whatever stands before it. -/
def Opens (content : Text) : Prop :=
  ∀ r, openSubscript? (content.reverse ++ '{' :: '_' :: r) = some (content.reverse, r)

theorem openSubscript?_eq {back : Text} (h : openSubscript? before = some (back, rest)) :
    before = back ++ '{' :: '_' :: rest ∧ '}' ∉ back ∧ Opens back.reverse := by
  unfold Opens
  rw [List.reverse_reverse]
  fun_induction openSubscript? before generalizing back with
  | case1 => simp at h
  | case2 before =>
    obtain ⟨rfl, rfl⟩ : [] = back ∧ before = rest := by simpa using h
    simp [openSubscript?]
  | case3 => simp at h
  | case4 c tail hopen hc ih =>
    obtain ⟨⟨x, y⟩, hp, he⟩ := Option.map_eq_some_iff.mp h
    obtain ⟨rfl, rfl⟩ : c :: x = back ∧ y = rest := by simpa using he
    obtain ⟨rfl, hx, hr⟩ := ih hp
    refine ⟨by simp, by simp [hx, Ne.symm hc], fun r => ?_⟩
    rw [List.cons_append, openSubscript?, if_neg hc, hr]
    · rfl
    · -- what follows `c` in the content follows it whatever stands before, so no `_{` appears
      intro t hbrace ht
      cases x with
      | nil => simp at ht
      | cons a x =>
        obtain rfl : a = '_' := (List.cons.inj ht).1
        exact hopen _ hbrace rfl

/-- The names read before a bracket, `rest` being the reversed text before the name: a letter with
a subscript, a letter with marks, or a run of letters and digits. Before a run stand no name
characters but the digits of a number. -/
inductive CallName (rest : Text) : Name → Prop
  | subscripted {letter : Char} {content : Text} (n : Nat) (hletter : isLetter letter = true)
      (hcontent : '}' ∉ content) (hopens : Opens content) :
      CallName rest (letter :: (Symbol.subscriptText content ++ marks n))
  | marked {letter : Char} (n : Nat) (hletter : isLetter letter = true) :
      CallName rest (letter :: marks (n + 1))
  | run {letter : Char} {more : Text} (hletter : isLetter letter = true)
      (hmore : ∀ c ∈ more, isNameChar c = true)
      (hrest : ∀ c ∈ rest.takeWhile isNameChar, Text.isAsciiDigit c = true) :
      CallName rest (letter :: more)

theorem nameBefore?_subscripted (n : Nat) (hletter : isLetter c = true)
    (hopens : Opens content) :
    nameBefore? (marks n ++ '}' :: (content.reverse ++ '{' :: '_' :: c :: rest)) =
      some (c :: (Symbol.subscriptText content ++ marks n)) := by
  have hmark : (fun c => c == '\'') = isMark := rfl
  have hstop : Stops isMark ('}' :: (content.reverse ++ '{' :: '_' :: c :: rest)) := by
    simp [Stops, isMark]
  unfold nameBefore?
  simp only [hmark]
  rw [takeWhile_append_stop (fun _ => isMark_of_mem_marks) hstop,
    dropWhile_append_stop (fun _ => isMark_of_mem_marks) hstop]
  simp only [hopens (c :: rest), hletter, if_true, List.reverse_reverse]

theorem nameBefore?_marked (n : Nat) (hletter : isLetter c = true) :
    nameBefore? (marks (n + 1) ++ c :: rest) = some (c :: marks (n + 1)) := by
  have hmark : (fun c => c == '\'') = isMark := rfl
  have hstop : Stops isMark (c :: rest) := by
    simpa [Stops, isMark] using ne_of_isLetter hletter (by decide)
  have hbrace : c ≠ '}' := ne_of_isLetter hletter (by decide)
  unfold nameBefore?
  simp only [hmark]
  rw [takeWhile_append_stop (fun _ => isMark_of_mem_marks) hstop,
    dropWhile_append_stop (fun _ => isMark_of_mem_marks) hstop]
  split
  case h_1 he => exact absurd (List.cons.inj he).1 hbrace
  case h_2 => simp [hletter, List.replicate_succ]

/-- A run has to be read up to its first character, which stands at its end. -/
theorem nameBefore?_run {first : Char} {tail core : Text} (hhead : isNameChar first = true)
    (hrun : ((first :: tail).takeWhile isNameChar).reverse.dropWhile Text.isAsciiDigit =
      c :: core) : nameBefore? (first :: tail) = some (c :: core) := by
  have hmark : (fun c => c == '\'') = isMark := rfl
  have hne : ∀ d, isNameChar d = false → first ≠ d := by
    rintro d hd rfl
    simp [hhead] at hd
  have hstop : Stops isMark (first :: tail) := by
    simpa [Stops, isMark] using hne '\'' (by decide)
  unfold nameBefore?
  simp only [hmark, Text.takeWhile_eq_nil hstop, Text.dropWhile_eq_self hstop]
  split
  case h_1 he => exact absurd (List.cons.inj he).1 (hne '}' (by decide))
  case h_2 =>
    simp only [List.isEmpty_nil, if_true, hrun, List.isEmpty_cons, Bool.false_eq_true, if_false]

theorem reverse_subscripted (n : Nat) : (c :: (Symbol.subscriptText content ++ marks n)).reverse ++
    rest = marks n ++ '}' :: (content.reverse ++ '{' :: '_' :: c :: rest) := by
  simp [Symbol.subscriptText]

theorem reverse_marked (n : Nat) : (c :: marks n).reverse ++ rest = marks n ++ c :: rest := by
  simp

theorem isNameChar_of_mem_reverse {more : Text} (hletter : isLetter c = true)
    (hmore : ∀ d ∈ more, isNameChar d = true) : ∀ d ∈ (c :: more).reverse, isNameChar d = true := by
  intro d hd
  rcases List.mem_cons.mp (List.mem_reverse.mp hd) with rfl | hd
  · exact isNameChar_of_isLetter hletter
  · exact hmore d hd

theorem nameBefore?_of_callName (h : CallName rest name) :
    nameBefore? (name.reverse ++ rest) = some name := by
  cases h with
  | subscripted n hletter hcontent hopens =>
    rw [reverse_subscripted]
    exact nameBefore?_subscripted n hletter hopens
  | marked n hletter =>
    rw [reverse_marked]
    exact nameBefore?_marked n hletter
  | @run letter more hletter hmore hrest =>
    have hname := isNameChar_of_mem_reverse hletter hmore
    have hrun : (((letter :: more).reverse ++ rest).takeWhile isNameChar).reverse.dropWhile
        Text.isAsciiDigit = letter :: more := by
      rw [List.takeWhile_append_of_pos hname, List.reverse_append, List.reverse_reverse]
      refine dropWhile_append_stop (fun c hc => hrest c (List.mem_reverse.mp hc)) ?_
      simpa [Stops] using isAsciiDigit_of_isLetter hletter
    obtain ⟨first, tail, hfirst⟩ : ∃ first tail, (letter :: more).reverse = first :: tail :=
      List.exists_cons_of_ne_nil (by simp)
    rw [hfirst] at hname hrun ⊢
    exact nameBefore?_run (hname first List.mem_cons_self) hrun

/-- A run of name characters, read backwards, is a name behind the digits of a number. -/
theorem callName_of_run {core : Text}
    (hrun : (core.takeWhile isNameChar).reverse.dropWhile Text.isAsciiDigit ≠ []) :
    ∃ rest,
      core = ((core.takeWhile isNameChar).reverse.dropWhile Text.isAsciiDigit).reverse ++ rest ∧
      CallName rest ((core.takeWhile isNameChar).reverse.dropWhile Text.isAsciiDigit) := by
  obtain ⟨letter, more, hname⟩ := List.exists_cons_of_ne_nil hrun
  generalize hdigits : (core.takeWhile isNameChar).reverse.takeWhile Text.isAsciiDigit = digits
  have htaken : core.takeWhile isNameChar = (letter :: more).reverse ++ digits.reverse := by
    rw [← hname, ← hdigits, ← List.reverse_append, List.takeWhile_append_dropWhile,
      List.reverse_reverse]
  have hchars : ∀ c ∈ letter :: more, isNameChar c = true := fun c hc =>
    List.mem_takeWhile_imp (l := core) (by
      rw [htaken]
      exact List.mem_append_left _ (List.mem_reverse.mpr hc))
  have hdigit : ∀ c ∈ digits.reverse, Text.isAsciiDigit c = true := fun c hc =>
    List.mem_takeWhile_imp (by rw [hdigits]; exact List.mem_reverse.mp hc)
  have hletter : isLetter letter = true := by
    have hno := Text.stops_dropWhile Text.isAsciiDigit (core.takeWhile isNameChar).reverse letter
      (by simp [hname])
    simpa [isNameChar, hno] using hchars letter (by simp)
  refine ⟨digits.reverse ++ core.dropWhile isNameChar, ?_, ?_⟩
  · rw [hname, ← List.append_assoc, ← htaken, List.takeWhile_append_dropWhile]
  · rw [hname]
    refine .run hletter (fun c hc => hchars c (List.mem_cons_of_mem _ hc)) fun c hc => ?_
    rw [List.takeWhile_append_of_pos fun c hc => by simp [isNameChar, hdigit c hc],
      Text.takeWhile_eq_nil (Text.stops_dropWhile isNameChar core), List.append_nil] at hc
    exact hdigit c hc

theorem callName_of_nameBefore? (h : nameBefore? before = some name) :
    ∃ rest, before = name.reverse ++ rest ∧ CallName rest name := by
  have hmark : (fun c => c == '\'') = isMark := rfl
  have hsplit : before = before.takeWhile isMark ++ before.dropWhile isMark := by simp
  obtain ⟨n, hn⟩ : ∃ n, before.takeWhile isMark = marks n := ⟨_, takeWhile_isMark before⟩
  unfold nameBefore? at h
  simp only [hmark] at h
  rw [hn] at hsplit h
  split at h
  case h_1 inner hinner =>
    rw [hinner] at hsplit
    split at h
    case h_1 back letter rest hopen =>
      obtain ⟨rfl, hback, hopens⟩ := openSubscript?_eq hopen
      split at h
      case isFalse => simp at h
      case isTrue hletter =>
        obtain rfl := Option.some.inj h
        refine ⟨rest, ?_, .subscripted n hletter (by simpa using hback) hopens⟩
        rw [hsplit]
        simp [Symbol.subscriptText]
    case h_2 => simp at h
  case h_2 =>
    generalize hcore : before.dropWhile isMark = core at h hsplit
    split at h
    case isTrue hnone =>
      rw [List.isEmpty_iff.mp hnone, List.nil_append] at hsplit
      subst hsplit
      split at h
      case isTrue => simp at h
      case isFalse hrun =>
        obtain rfl := Option.some.inj h
        exact callName_of_run (by simpa using hrun)
    case isFalse hsome =>
      split at h
      case h_2 => simp at h
      case h_1 letter rest =>
        split at h
        case isFalse => simp at h
        case isTrue hletter =>
          obtain rfl := Option.some.inj h
          obtain ⟨m, rfl⟩ := Nat.exists_eq_succ_of_ne_zero (n := n) (by rintro rfl; simp at hsome)
          exact ⟨rest, by rw [hsplit]; simp, .marked m hletter⟩

/-- The name that a text starts with: a letter with its subscript and marks, with its marks, or with
the name characters after it. -/
def frontName : Text → Text
  | [] => []
  | c :: rest =>
    c :: match rest with
      | '_' :: '{' :: body =>
        match Text.cut? '}' body with
        | some (content, after) => Symbol.subscriptText content ++ after.takeWhile isMark
        | none => []
      | '\'' :: _ => rest.takeWhile isMark
      | _ => rest.takeWhile isNameChar

/-- A blank that may stand between a function's name and its bracket. -/
def isGap (b : Char) : Bool := b == ' ' || b == '\t'

/-- A round bracket opens here, at most gaps before it. -/
def Leads (t : Text) : Prop := (t.dropWhile isGap).head? = some '('

theorem Leads.stops {p : Char → Bool} {after : Text} (h : Leads after)
    (hp : ∀ c, isGap c = true ∨ c = '(' → p c = false) : Stops p after := by
  intro c hc
  apply hp
  cases after with
  | nil => simp at hc
  | cons d rest =>
    obtain rfl : d = c := by simpa using hc
    by_cases hd : isGap d = true
    · exact Or.inl hd
    · rw [Leads, List.dropWhile_cons_of_neg hd] at h
      exact Or.inr (by simpa using h)

theorem isNameChar_of_gap (h : isGap c = true ∨ c = '(') : isNameChar c = false := by
  simp only [isGap, Bool.or_eq_true, beq_iff_eq] at h
  rcases h with (rfl | rfl) | rfl <;> decide

theorem isMark_of_gap (h : isGap c = true ∨ c = '(') : isMark c = false := by
  simp only [isGap, Bool.or_eq_true, beq_iff_eq] at h
  rcases h with (rfl | rfl) | rfl <;> decide

/-- Forwards and backwards the same name is read. -/
theorem frontName_of_callName (h : CallName rest name) {after : Text} (hl : Leads after) :
    frontName (name ++ after) = name := by
  have hstop : Stops isMark after := hl.stops fun _ => isMark_of_gap
  cases h with
  | @subscripted letter content n _ hcontent _ =>
    have ht : letter :: (Symbol.subscriptText content ++ marks n) ++ after =
        letter :: '_' :: '{' :: (content ++ '}' :: (marks n ++ after)) := by
      simp [Symbol.subscriptText]
    rw [ht]
    simp only [frontName, Text.cut?_append hcontent]
    rw [takeWhile_append_stop (fun _ => isMark_of_mem_marks) hstop]
  | @marked letter n _ =>
    have ht : letter :: marks (n + 1) ++ after = letter :: '\'' :: (marks n ++ after) := by
      simp [List.replicate_succ]
    rw [ht]
    simp only [frontName]
    rw [← List.cons_append, ← List.replicate_succ,
      takeWhile_append_stop (fun _ => isMark_of_mem_marks) hstop]
  | @run letter more _ hmore _ =>
    have hhead : ∀ c ∈ (more ++ after).head?, c ≠ '_' ∧ c ≠ '\'' := by
      intro c hc
      cases more with
      | nil =>
        have hgap := hl.stops (p := fun c => c == '_' || c == '\'') (by
          intro d hd
          simp only [isGap, Bool.or_eq_true, beq_iff_eq] at hd
          rcases hd with (rfl | rfl) | rfl <;> decide) c hc
        simpa using hgap
      | cons m more =>
        obtain rfl : m = c := by simpa using hc
        have hm := hmore m (by simp)
        constructor <;> (rintro rfl; exact absurd hm (by decide))
    rw [List.cons_append, frontName,
      takeWhile_append_stop hmore (hl.stops fun _ => isNameChar_of_gap)]
    · intro body heq
      exact (hhead '_' (by rw [heq]; rfl)).1 rfl
    · intro body heq
      exact (hhead '\'' (by rw [heq]; rfl)).2 rfl

end Formulary.Formula
