import Formulary.Calc.Lexeme
import Formulary.Proofs.Eval.Word
import Formulary.Proofs.Text.Run

/-! # The names that a scanner reads

A lexeme that is a name is a word of the text: no step of the scanner ends within a
run of identifier characters. Touching operators are regrouped, blank ends dropped,
and neither puts a bracket behind a name or takes one away.
-/

namespace Formulary.Lexeme

open Formula (Leads isGap leads_cons)
open Text (IsName Stops WordIn isAsciiDigit isIdentRest isIdentRest_of_isBlank isIdentRest_of_start
  isIdentStart stops_reverse_append wordIn_front)

variable {t u w after : Text} {c : Char} {ls : List Lexeme} {n : Text}

/-! ### What one step takes -/

/-- An ASCII character that is no word character. -/
def isPunctuation (c : Char) : Bool := c.toNat < 128 && !(c.isAlphanum || c == '_')

theorem isIdentRest_of_isPunctuation (h : isPunctuation c = true) : isIdentRest c = false := by
  obtain ⟨hascii, hword⟩ := (Bool.and_eq_true _ _).mp h
  rw [Text.isIdentRest_of_ascii (of_decide_eq_true hascii)]
  simpa using hword

/-- No character of an operator belongs to a name. -/
theorem isIdentRest_of_operator? {o : Text} (h : operator? t = some o) :
    t = o ++ t.drop o.length ∧ o ≠ [] ∧ ∀ c ∈ o, isIdentRest c = false := by
  have hlong : ∀ o ∈ longOperators, o ≠ [] ∧ o.all isPunctuation = true := by decide +kernel
  have hshort : shortOperators.all isPunctuation = true := by decide +kernel
  unfold operator? at h
  split at h
  · rename_i o' ho
    obtain rfl := Option.some.inj h
    obtain ⟨rest, rfl⟩ : o' <+: t := by simpa using List.find?_some ho
    obtain ⟨hne, hall⟩ := hlong _ (List.mem_of_find?_eq_some ho)
    exact ⟨by simp, hne, fun c hc => isIdentRest_of_isPunctuation (List.all_eq_true.mp hall c hc)⟩
  · split at h
    · split at h
      · rename_i hc
        obtain rfl := Option.some.inj h
        have hpunctuation := List.all_eq_true.mp hshort _ (List.contains_iff_mem.mp hc)
        exact ⟨by simp, by simp, by simpa using isIdentRest_of_isPunctuation hpunctuation⟩
      · simp at h
    · simp at h

theorem moreDigits_suffix (t : Text) : (moreDigits t).2 <:+ t := by
  fun_induction moreDigits t with
  | case1 d rest hd ds after he ih =>
    rw [he] at ih
    exact (ih.trans (List.suffix_cons d rest)).trans (List.suffix_cons '_' _)
  | case3 d rest hne hd ds after he ih =>
    rw [he] at ih
    exact ih.trans (List.suffix_cons d rest)
  | _ => exact List.suffix_refl _

theorem suffix_of_digits {ds : Text} (h : digits t = (ds, after)) : after <:+ t := by
  unfold digits at h
  split at h
  · split at h
    · rename_i d rest hd
      obtain ⟨-, rfl⟩ := Prod.mk.inj h
      exact (moreDigits_suffix rest).trans (List.suffix_cons d rest)
    · obtain ⟨-, rfl⟩ := Prod.mk.inj h
      exact List.suffix_refl _
  · obtain ⟨-, rfl⟩ := Prod.mk.inj h
    exact List.suffix_refl _

theorem suffix_of_exponent? {e : Int} (h : exponent? t = some (e, after)) : after <:+ t := by
  unfold exponent? at h
  split at h
  · rename_i c rest
    split at h
    · dsimp only at h
      split at h
      · simp at h
      · rename_i ds after' hne hdigits
        obtain ⟨-, rfl⟩ := Prod.mk.inj (Option.some.inj h)
        refine ((suffix_of_digits hdigits).trans ?_).trans (List.suffix_cons c rest)
        split
        · exact List.suffix_cons ..
        · exact List.suffix_cons ..
        · exact List.suffix_refl _
    · simp at h
  · simp at h

theorem suffix_of_number? {l : Lexeme} (h : number? t = some (l, after)) : after <:+ t := by
  have hdigits : (digits t).2 <:+ t := suffix_of_digits rfl
  have hpoint {more : Text} (hmore : (digits t).2 = '.' :: more) : (digits more).2 <:+ t :=
    ((suffix_of_digits rfl).trans (List.suffix_cons '.' more)).trans (hmore ▸ hdigits)
  unfold number? at h
  dsimp only at h
  split at h
  · rename_i e rest hexponent
    obtain ⟨-, rfl⟩ := Prod.mk.inj (Option.some.inj h)
    refine (suffix_of_exponent? hexponent).trans ?_
    split
    · exact hpoint ‹_›
    · exact hdigits
  · split at h
    · obtain ⟨-, rfl⟩ := Prod.mk.inj (Option.some.inj h)
      exact hpoint ‹_›
    · split at h
      · rename_i hfalse
        simp at hfalse
      · split at h
        · simp at h
        · obtain ⟨-, rfl⟩ := Prod.mk.inj (Option.some.inj h)
          exact hdigits

theorem number?_ne_name : ∀ r ∈ number? t, r.1 ≠ .name n := by
  intro r hr
  unfold number? at hr
  dsimp only at hr
  split at hr
  · simp [← Option.some.inj hr]
  · split at hr
    · simp [← Option.some.inj hr]
    · split at hr
      · simp [← Option.some.inj hr]
      · split at hr
        · simp at hr
        · simp [← Option.some.inj hr]

theorem split_of_afterQuote? {quote : Char} (h : afterQuote? quote t = some after) :
    ∃ u, t = u ++ quote :: after := by
  fun_induction afterQuote? quote t with
  | case1 => simp at h
  | case2 d rest ih =>
    obtain ⟨u, rfl⟩ := ih h
    exact ⟨'\\' :: d :: u, rfl⟩
  | case3 rest =>
    obtain rfl := Option.some.inj h
    exact ⟨[], rfl⟩
  | case4 => simp at h
  | case5 c rest _ _ _ ih =>
    obtain ⟨u, rfl⟩ := ih h
    exact ⟨c :: u, rfl⟩

theorem split_of_afterTriple? {quote : Char} (h : afterTriple? quote t = some after) :
    ∃ u, t = u ++ quote :: after := by
  fun_induction afterTriple? quote t with
  | case1 => simp at h
  | case2 d rest ih =>
    obtain ⟨u, rfl⟩ := ih h
    exact ⟨'\\' :: d :: u, rfl⟩
  | case3 c rest hne hquotes =>
    obtain ⟨more, hmore⟩ : [quote, quote, quote] <+: c :: rest := by simpa using hquotes
    obtain ⟨rfl, rfl⟩ : quote = c ∧ quote :: quote :: more = rest := by simpa using hmore
    obtain rfl : more = after := by simpa using h
    exact ⟨[quote, quote], rfl⟩
  | case4 c rest _ _ ih =>
    obtain ⟨u, rfl⟩ := ih h
    exact ⟨c :: u, rfl⟩

theorem split_of_quotedRest? {quote : Char} (h : quotedRest? quote t = some after) :
    ∃ u, t = u ++ quote :: after := by
  unfold quotedRest? at h
  split at h
  · obtain ⟨u, hu⟩ := split_of_afterTriple? h
    exact ⟨t.take 2 ++ u, by rw [List.append_assoc, ← hu, List.take_append_drop]⟩
  · exact split_of_afterQuote? h

/-- What one step takes from the front of a text. It does not end within a run. -/
structure Taken (taken : Option Lexeme) (u after : Text) : Prop where
  edge : Stops isIdentRest u.reverse ∨ Stops isIdentRest after
  name : ∀ n, taken = some (.name n) → n = u ∧ IsName n ∧ Stops isIdentRest after

theorem taken_last {taken : Option Lexeme} {d : Char} (hd : isIdentRest d = false)
    (hname : ∀ n, taken ≠ some (.name n)) : Taken taken (u ++ [d]) after :=
  ⟨Or.inl (by simpa [Stops] using hd), fun n h => absurd h (hname n)⟩

theorem taken_of_cut? {rest : Text} {taken : Option Lexeme}
    (h : cut? c rest = some (taken, after)) : ∃ u, c :: rest = u ++ after ∧
    Taken taken u after := by
  unfold cut? at h
  dsimp only at h
  split at h
  · rename_i hblank
    obtain ⟨rfl, rfl⟩ : none = taken ∧ rest = after := by simpa using h
    refine ⟨[c], rfl, taken_last (u := []) ?_ (by simp)⟩
    simp only [Bool.or_eq_true, beq_iff_eq] at hblank
    rcases hblank with (rfl | rfl) | rfl <;> decide +kernel
  split at h
  · rename_i hline
    obtain ⟨rfl, rfl⟩ : some .lineEnd = taken ∧ rest = after := by simpa using h
    obtain rfl : c = '\n' := by simpa using hline
    exact ⟨['\n'], rfl, taken_last (u := []) (by decide +kernel) (by simp)⟩
  split at h
  · obtain ⟨rfl, rfl⟩ : none = taken ∧ rest.dropWhile (· != '\n') = after := by simpa using h
    refine ⟨c :: rest.takeWhile (· != '\n'), by simp, Or.inr ?_, by simp⟩
    intro d hd
    have hline : d = '\n' := by simpa using Text.stops_dropWhile (· != '\n') rest d hd
    subst hline
    decide +kernel
  split at h
  · split at h
    · rename_i l after' hnumber
      split at h
      · rename_i hclean
        obtain ⟨rfl, rfl⟩ : some l = taken ∧ after' = after := by simpa using h
        obtain ⟨u, hu⟩ := suffix_of_number? hnumber
        refine ⟨u, hu.symm, Or.inr fun d hd => ?_, fun n hn => ?_⟩
        · simpa [endsCleanly, Option.mem_def.mp hd] using hclean
        · exact absurd (Option.some.inj hn) (number?_ne_name _ hnumber)
      · simp at h
    · simp at h
  split at h
  · rename_i hstart
    obtain ⟨rfl, rfl⟩ : some (.name (c :: rest.takeWhile isIdentRest)) = taken ∧
      rest.dropWhile isIdentRest = after := by simpa using h
    refine ⟨c :: rest.takeWhile isIdentRest, by simp, Or.inr (Text.stops_dropWhile _ _), ?_⟩
    intro n hn
    obtain rfl := Lexeme.name.inj (Option.some.inj hn)
    refine ⟨rfl, ⟨by simpa using hstart,
      List.forall_mem_cons.mpr ⟨isIdentRest_of_start hstart, fun d hd => ?_⟩⟩,
      Text.stops_dropWhile _ _⟩
    exact List.mem_takeWhile_imp hd
  split at h
  · rename_i hquote
    obtain ⟨after', hrest, he⟩ := Option.map_eq_some_iff.mp h
    obtain ⟨rfl, rfl⟩ : some .quoted = taken ∧ after' = after := by simpa using he
    obtain ⟨u, hu⟩ := split_of_quotedRest? hrest
    refine ⟨(c :: u) ++ [c], by simp [hu], taken_last ?_ (by simp)⟩
    simp only [Bool.or_eq_true, beq_iff_eq] at hquote
    rcases hquote with rfl | rfl <;> decide +kernel
  split at h
  · rename_i o ho
    obtain ⟨rfl, rfl⟩ : some (.op o) = taken ∧ (c :: rest).drop o.length = after := by
      simpa using h
    obtain ⟨hsplit, hne, ho⟩ := isIdentRest_of_operator? ho
    refine ⟨o, hsplit, Or.inl ?_, by simp⟩
    simpa using Text.stops_append (t := []) (List.reverse_ne_nil_iff.mpr hne) (by simpa using ho)
  · split at h
    · rename_i hbang
      obtain ⟨rfl, rfl⟩ : some .bang = taken ∧ rest = after := by simpa using h
      obtain rfl : c = '!' := by simpa using hbang
      exact ⟨['!'], rfl, taken_last (u := []) (by decide +kernel) (by simp)⟩
    · simp at h

/-! ### Names that are not called -/

/-- A name that no round bracket follows. -/
def Plain (n : Text) (ls : List Lexeme) : Prop :=
  ∃ pre post, ls = pre ++ .name n :: post ∧ post.head? ≠ some (.op ['('])

theorem plain_cons {l : Lexeme} : Plain n (l :: ls) ↔
    (l = .name n ∧ ls.head? ≠ some (.op ['('])) ∨ Plain n ls := by
  constructor
  · rintro ⟨pre, post, h, hpost⟩
    cases pre with
    | nil =>
      obtain ⟨rfl, rfl⟩ := List.cons.inj h
      exact Or.inl ⟨rfl, hpost⟩
    | cons k pre => exact Or.inr ⟨pre, post, (List.cons.inj h).2, hpost⟩
  · rintro (⟨rfl, hpost⟩ | ⟨pre, post, rfl, hpost⟩)
    · exact ⟨[], ls, rfl, hpost⟩
    · exact ⟨l :: pre, post, rfl, hpost⟩

theorem not_plain_nil : ¬ Plain n [] := by
  rintro ⟨pre, post, h, -⟩
  simp at h

theorem Plain.append (h : Plain n ls) (ks : List Lexeme) : Plain n (ks ++ ls) := by
  obtain ⟨pre, post, rfl, hpost⟩ := h
  exact ⟨ks ++ pre, post, by simp, hpost⟩

theorem operator?_opening (t : Text) : operator? ('(' :: t) = some ['('] := by
  have hlong : longOperators.find? (fun o => o.isPrefixOf ('(' :: t)) = none := by
    rw [List.find?_eq_none]
    have hne : ∀ o ∈ longOperators, o.head?.any (· != '(') = true := by decide
    intro o ho hpre
    obtain ⟨rest, hrest⟩ : o <+: '(' :: t := by simpa using hpre
    have := hne o ho
    cases o with
    | nil => simp at this
    | cons d o =>
      obtain rfl : d = '(' := by simpa using congrArg List.head? hrest
      simp at this
  have hshort : shortOperators.contains '(' = true := by decide
  simp only [operator?, hlong, hshort, if_true]

theorem cut?_gap {rest : Text} (h : isGap c = true) : cut? c rest = some (none, rest) := by
  rcases (Bool.or_eq_true _ _).mp h with hc | hc <;> simp [cut?, hc]

theorem cut?_opening {rest : Text} : cut? '(' rest = some (some (.op ['(']), rest) := by
  have hstart : isIdentStart '(' = false := by decide +kernel
  simp [cut?, hstart, operator?_opening, isAsciiDigit]

/-- Where a bracket opens, possibly after gaps, it is the first lexeme. -/
theorem head_of_scan {fuel depth : Nat} (h : scan fuel depth t = some ls) (hl : Leads t) :
    ls.head? = some (.op ['(']) := by
  induction fuel generalizing t with
  | zero =>
    cases t with
    | nil => simp [Leads] at hl
    | cons c t => simp [scan] at h
  | succ fuel ih =>
    cases t with
    | nil => simp [Leads] at hl
    | cons c rest =>
      rw [scan] at h
      by_cases hgap : isGap c = true
      · rw [cut?_gap hgap] at h
        refine ih h ?_
        rwa [Leads, List.dropWhile_cons_of_pos hgap] at hl
      · obtain rfl := (leads_cons (by simpa using hgap)).mp hl
        rw [cut?_opening] at h
        obtain ⟨_, hcut, h⟩ := Option.bind_eq_some_iff.mp h
        obtain rfl := Option.some.inj hcut
        obtain ⟨depth', -, h⟩ := Option.bind_eq_some_iff.mp h
        obtain ⟨more, -, h⟩ := Option.bind_eq_some_iff.mp h
        simp [← Option.some.inj h]

/-- A name read from a text is a word of it, and one that is not called has no bracket behind. -/
theorem wordIn_of_scan {fuel depth : Nat} (h : scan fuel depth t = some ls) (hn : Plain n ls) :
    IsName n ∧ ∃ after, WordIn n after t ∧ ¬ Leads after := by
  induction fuel generalizing depth t ls with
  | zero =>
    cases t with
    | nil => exact absurd (Option.some.inj h ▸ hn) not_plain_nil
    | cons c t => simp [scan] at h
  | succ fuel ih =>
    cases t with
    | nil => exact absurd (Option.some.inj h ▸ hn) not_plain_nil
    | cons c rest =>
      rw [scan] at h
      obtain ⟨⟨taken, after⟩, hcut, h⟩ := Option.bind_eq_some_iff.mp h
      obtain ⟨u, hu, htaken⟩ := taken_of_cut? hcut
      rw [hu]
      have hlater {depth : Nat} {ls : List Lexeme} (h : scan fuel depth after = some ls)
          (hn : Plain n ls) : IsName n ∧ ∃ behind, WordIn n behind (u ++ after) ∧
            ¬ Leads behind := by
        obtain ⟨hname, behind, hword, hl⟩ := ih h hn
        exact ⟨hname, behind, hword.append hname.ne_nil htaken.edge, hl⟩
      split at h
      · rename_i heq
        obtain ⟨-, rfl⟩ := Prod.mk.inj heq
        exact hlater h hn
      · rename_i heq
        obtain ⟨-, rfl⟩ := Prod.mk.inj heq
        split at h
        · exact hlater h hn
        · obtain ⟨more, hmore, h⟩ := Option.bind_eq_some_iff.mp h
          obtain rfl := Option.some.inj h
          rcases plain_cons.mp hn with ⟨hline, -⟩ | hn
          · simp at hline
          · exact hlater hmore hn
      · rename_i heq
        obtain ⟨-, rfl⟩ := Prod.mk.inj heq
        obtain ⟨depth', -, h⟩ := Option.bind_eq_some_iff.mp h
        obtain ⟨more, hmore, h⟩ := Option.bind_eq_some_iff.mp h
        obtain rfl := Option.some.inj h
        rcases plain_cons.mp hn with ⟨hop, -⟩ | hn
        · simp at hop
        · exact hlater hmore hn
      · rename_i l after' hline hop heq
        obtain ⟨rfl, rfl⟩ := Prod.mk.inj heq
        obtain ⟨more, hmore, h⟩ := Option.bind_eq_some_iff.mp h
        obtain rfl := Option.some.inj h
        rcases plain_cons.mp hn with ⟨rfl, hhead⟩ | hn
        · obtain ⟨rfl, hname, hstops⟩ := htaken.name n rfl
          exact ⟨hname, after, wordIn_front hname.chars hstops,
            fun hl => hhead (head_of_scan hmore hl)⟩
        · exact hlater hmore hn

/-! ### Touching operators -/

theorem Plain.of_append {ks : List Lexeme} (h : Plain n (ks ++ ls)) (hks : .name n ∉ ks) :
    Plain n ls := by
  induction ks with
  | nil => exact h
  | cons k ks ih =>
    rw [List.mem_cons, not_or] at hks
    rcases plain_cons.mp h with ⟨rfl, -⟩ | h
    · exact absurd rfl hks.1
    · exact ih h hks.2

theorem name_notMem_splitOperators {fuel : Nat} : .name n ∉ splitOperators fuel t := by
  induction fuel generalizing t with
  | zero => simp [splitOperators]
  | succ fuel ih =>
    unfold splitOperators
    split
    · simp [ih]
    · simp

theorem head?_splitOperators_append {run : Text} (h : run.head? = some '(') :
    (splitOperators run.length run ++ ls).head? = some (.op ['(']) := by
  obtain ⟨run, rfl⟩ := List.head?_eq_some_iff.mp h
  simp [splitOperators, operator?_opening]

/-- A run that begins with a bracket is split after it. -/
theorem head?_regroup {run : Text} (h : run.head? = some '(') :
    (regroup run ls).head? = some (.op ['(']) := by
  fun_induction regroup run ls with
  | case1 run o rest ih => exact ih (by simp [h])
  | case2 run l rest hop ih => exact head?_splitOperators_append h
  | case3 run =>
    rw [← List.append_nil (splitOperators run.length run)]
    exact head?_splitOperators_append h

theorem plain_of_regroup {run : Text} (h : Plain n (regroup run ls)) : Plain n ls := by
  fun_induction regroup run ls with
  | case1 run o rest ih => exact plain_cons.mpr (Or.inr (ih h))
  | case2 run l rest hop ih =>
    rcases plain_cons.mp (h.of_append name_notMem_splitOperators) with ⟨hl, hhead⟩ | h
    · refine plain_cons.mpr (Or.inl ⟨hl, fun hrest => hhead ?_⟩)
      obtain ⟨rest, rfl⟩ := List.head?_eq_some_iff.mp hrest
      have hopens : (regroup ['('] rest).head? = some (.op ['(']) := head?_regroup rfl
      exact hopens
    · exact plain_cons.mpr (Or.inr (ih h))
  | case3 run =>
    refine absurd ?_ (not_plain_nil (n := n))
    exact Plain.of_append (by simpa using h) name_notMem_splitOperators

/-! ### The whole text -/

theorem not_leads_append (h : ¬ Leads after) (hu : ∀ c ∈ u, c ≠ '(') : ¬ Leads (after ++ u) := by
  intro hl
  rw [Leads, List.dropWhile_append] at hl
  split at hl
  · exact hu '(' ((List.dropWhile_sublist _).subset (List.mem_of_head? hl)) rfl
  · rename_i hne
    cases hdrop : after.dropWhile isGap with
    | nil => simp [hdrop] at hne
    | cons c rest =>
      rw [hdrop] at hl
      exact h (by simpa [Leads, hdrop] using hl)

theorem wordIn_of_strip (h : WordIn w after (Text.strip t)) (hl : ¬ Leads after) :
    ∃ behind, WordIn w behind t ∧ ¬ Leads behind := by
  obtain ⟨before, behind, ht, hbefore, hbehind⟩ := Text.strip_split t
  obtain ⟨hw, ha, front, hsplit, hfront⟩ := h
  refine ⟨after ++ behind, ⟨hw, ?_, before ++ front, ?_, ?_⟩, ?_⟩
  · cases after with
    | cons c after => exact ha
    | nil =>
      intro c hc
      exact isIdentRest_of_isBlank (hbehind c (List.mem_of_head? hc))
  · rw [ht, hsplit]
    simp
  · cases front with
    | cons c front => exact stops_reverse_append (by simp) hfront
    | nil =>
      intro c hc
      refine isIdentRest_of_isBlank (hbefore c ?_)
      simpa using List.mem_of_head? hc
  · refine not_leads_append hl fun c hc => ?_
    rintro rfl
    exact absurd (hbehind '(' hc) (by decide)

/-- A name that is read from a text and not called is a word of it with no bracket behind. -/
theorem wordIn_of_ofText? (h : ofText? t = some ls) (hn : Plain n ls) :
    IsName n ∧ ∃ after, WordIn n after t ∧ ¬ Leads after := by
  obtain ⟨ks, hscan, rfl⟩ := Option.map_eq_some_iff.mp h
  have hn : Plain n ks := by
    rw [← List.takeWhile_append_dropWhile (p := (· == .lineEnd)) (l := ks)]
    exact (plain_of_regroup hn).append _
  obtain ⟨hname, after, hword, hl⟩ := wordIn_of_scan hscan hn
  exact ⟨hname, wordIn_of_strip hword hl⟩

end Formulary.Lexeme
