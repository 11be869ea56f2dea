import Formulary.Proofs.Formula.Known
import Formulary.Proofs.Formula.Terminal

/-! # Fewer functions known

A name before a bracket that is not known is cut into letters and numbers, and behind it
the formula is cut as before. So with fewer functions known the tokens stay, but for the
calls of those that are not known any more.
-/

namespace Formulary.Formula

open Text (Stops)

variable {lex : Lexicon} {functions functions' : List Name} {known known' : Name → Bool}
  {k : TokenKind} {c : Char} {t w run rest after : Text} {name : Name} {token : Token} {i : Nat}
  {spans : List (Nat × Nat)}

/-! ### One token -/

theorem tokensFrom_cut (hnone : spanEnd? spans i = none) (hcut : Cut k c w after) :
    tokensFrom spans i (c :: w ++ after) =
      ⟨k, c :: w, i⟩ :: tokensFrom spans (i + (c :: w).length) after := by
  rw [List.cons_append, tokensFrom, cutToken_of_none hnone, hcut.cutToken]
  simp [hcut.isOpenTail]

theorem tokensFrom_call (hspan : spanEnd? spans i = some (i + (c :: w).length)) :
    tokensFrom spans i (c :: w ++ after) =
      ⟨.func, c :: w, i⟩ :: tokensFrom spans (i + (c :: w).length) after := by
  rw [List.cons_append, tokensFrom, cutToken_of_some hspan]
  simp [isOpenTail]

/-! ### Names in pieces -/

/-- A run of name characters goes on with one or with a bracket. -/
theorem Leads.stops_append {p : Char → Bool} (hl : Leads after)
    (hrun : ∀ d ∈ run, isNameChar d = true)
    (hp : ∀ d, isNameChar d = true ∨ isGap d = true ∨ d = '(' → p d = false) :
    Stops p (run ++ after) := by
  cases run with
  | nil => exact hl.stops fun d hd => hp d (Or.inr hd)
  | cons d run =>
    apply Text.stops_append (by simp)
    exact fun e he => hp e (Or.inl (hrun e he))

theorem isMark_of_nameChar (h : isNameChar c = true ∨ isGap c = true ∨ c = '(') :
    isMark c = false := by
  rcases h with h | h
  · rw [Bool.eq_false_iff, isMark, ne_eq, beq_iff_eq]
    rintro rfl
    exact absurd h (by decide)
  · exact isMark_of_gap h

theorem ne_underscore_of_nameChar (h : isNameChar c = true ∨ isGap c = true ∨ c = '(') :
    (c == '_') = false := by
  rw [beq_eq_false_iff_ne]
  rintro rfl
  exact absurd h (by decide)

theorem takeNumber_digits_stop {dotted : Bool} {ds : Text}
    (hds : ∀ d ∈ ds, Text.isAsciiDigit d = true)
    (hstop : Stops (fun d => Text.isAsciiDigit d || d == '.') after) :
    takeNumber dotted (ds ++ after) = (ds, after) := by
  have hnone : takeNumber dotted after = ([], after) := by
    cases after with
    | nil => rfl
    | cons d after =>
      have hd := hstop d rfl
      rw [Bool.or_eq_false_iff, beq_eq_false_iff_ne] at hd
      simp [takeNumber, hd]
  rw [takeNumber_digits hds, hnone, List.append_nil]

/-- The first token of a run is a letter, or the digits up to the next letter. -/
theorem exists_cut_of_run (hc : isNameChar c = true) (hrun : ∀ d ∈ run, isNameChar d = true)
    (hl : Leads after) : ∃ k w more, run = w ++ more ∧ Cut k c w (more ++ after) := by
  by_cases hletter : isLetter c = true
  · refine ⟨.atom, [], run, rfl, .letter 0 hletter ?_ fun _ body he => ?_⟩
    · exact hl.stops_append hrun fun _ => isMark_of_nameChar
    · have hstop : Stops (· == '_') (run ++ after) :=
        hl.stops_append hrun fun _ => ne_underscore_of_nameChar
      exact absurd (hstop '_' (by rw [he]; rfl)) (by simp)
  · have hdigit : Text.isAsciiDigit c = true := by simpa [isNameChar, hletter] using hc
    refine ⟨.number, run.takeWhile Text.isAsciiDigit, run.dropWhile Text.isAsciiDigit,
      by simp, .number (by simp [startsNumber, hdigit]) ?_⟩
    apply takeNumber_digits_stop fun d => List.mem_takeWhile_imp
    have hnext := Text.stops_dropWhile Text.isAsciiDigit run
    have hmore : ∀ d ∈ run.dropWhile Text.isAsciiDigit, isNameChar d = true :=
      fun d hd => hrun d ((List.dropWhile_sublist _).mem hd)
    cases hrest : run.dropWhile Text.isAsciiDigit with
    | nil =>
      apply hl.stops
      simp only [isGap, Bool.or_eq_true, beq_iff_eq]
      rintro d ((rfl | rfl) | rfl) <;> decide
    | cons d more =>
      rw [hrest] at hnext hmore
      have hdot : d ≠ '.' := by
        rintro rfl
        exact absurd (hmore '.' List.mem_cons_self) (by decide)
      simpa [Stops, hdot] using hnext

/-- The tokens behind a run of letters and digits are cut as well where no call starts in it. -/
theorem mem_tokensFrom_of_run (hrun : ∀ d ∈ run, isNameChar d = true) (hl : Leads after)
    (hnone : ∀ j, i ≤ j → j < i + run.length → spanEnd? spans j = none)
    (hk : token ∈ tokensFrom spans (i + run.length) after) :
    token ∈ tokensFrom spans i (run ++ after) := by
  induction hn : run.length using Nat.strong_induction_on generalizing run i with
  | _ n ih =>
    subst hn
    cases run with
    | nil => simpa using hk
    | cons c run =>
      obtain ⟨hc, hrun⟩ := List.forall_mem_cons.mp hrun
      have hstart : spanEnd? spans i = none := hnone i (Nat.le_refl i) (by simp)
      obtain ⟨k, w, more, rfl, hcut⟩ := exists_cut_of_run hc hrun hl
      have hlength : (c :: (w ++ more)).length = (c :: w).length + more.length := by
        rw [← List.cons_append, List.length_append]
      rw [hlength, ← Nat.add_assoc] at hk
      rw [← List.cons_append, List.append_assoc, tokensFrom_cut hstart hcut]
      apply List.mem_cons_of_mem
      refine ih more.length (by rw [hlength, List.length_cons]; omega)
        (fun d hd => hrun d (List.mem_append_right w hd)) (fun j hj hlt => ?_) hk rfl
      exact hnone j (by omega) (by omega)

/-- No other name starts where a name before a bracket starts, and none in a run. -/
theorem CallName.spanEnd?_eq_none {pre : Text} (h : CallName pre.reverse name) (hl : Leads after)
    (hk : known name = false) :
    spanEnd? (callSpans known (pre ++ (name ++ after))) pre.length = none := by
  cases hspan : spanEnd? (callSpans known (pre ++ (name ++ after))) pre.length with
  | none => rfl
  | some stop =>
    obtain ⟨name', after', ht, hname, hknown, hl', -⟩ := spanEnd?_eq_some_iff.mp hspan
    have he : name' = name := by
      rw [← frontName_of_callName hname hl', ← ht, frontName_of_callName h hl]
    rw [he, hk] at hknown
    cases hknown

/-- Behind a letter of a run no name starts. -/
theorem not_callName_of_run {d : Char} {front back before : Text} (hletter : isLetter c = true)
    (hfront : ∀ e ∈ front, isNameChar e = true) (hback : ∀ e ∈ back, isNameChar e = true)
    (hl : Leads after) (ht : d :: (back ++ after) = name ++ t) :
    ¬ CallName ((c :: front).reverse ++ before) name := by
  intro h
  cases h with
  | subscripted n =>
    have hnext := (List.cons.inj ht).2
    have hstop : Stops (· == '_') (back ++ after) :=
      hl.stops_append hback fun _ => ne_underscore_of_nameChar
    exact absurd (hstop '_' (by rw [hnext]; rfl)) (by simp)
  | marked n =>
    have hnext := (List.cons.inj ht).2
    have hstop : Stops isMark (back ++ after) :=
      hl.stops_append hback fun _ => isMark_of_nameChar
    exact absurd (hstop '\'' (by rw [hnext]; rfl)) (by simp [isMark])
  | run _ _ hrest =>
    have hin : c ∈ ((c :: front).reverse ++ before).takeWhile isNameChar := by
      rw [List.takeWhile_append_of_pos (isNameChar_of_mem_reverse hletter hfront)]
      simp
    have hdigit := hrest c hin
    simp [isAsciiDigit_of_isLetter hletter] at hdigit

theorem spanEnd?_inside_run {pre more : Text} {m : Nat} (hletter : isLetter c = true)
    (hmore : ∀ d ∈ more, isNameChar d = true) (hl : Leads after) (hm : m < more.length) :
    spanEnd? (callSpans known (pre ++ (c :: more ++ after))) (pre.length + (m + 1)) = none := by
  have hsplit : more = more.take m ++ more[m] :: more.drop (m + 1) := by
    rw [← List.drop_eq_getElem_cons hm, List.take_append_drop]
  have hwhole : pre ++ (c :: more ++ after) = (pre ++ c :: more.take m) ++
      (more[m] :: (more.drop (m + 1) ++ after)) :=
    calc pre ++ (c :: more ++ after)
        = pre ++ (c :: (more.take m ++ more[m] :: more.drop (m + 1)) ++ after) := by rw [← hsplit]
      _ = _ := by simp only [List.cons_append, List.append_assoc]
  have hposition : pre.length + (m + 1) = (pre ++ c :: more.take m).length := by
    simp only [List.length_append, List.length_cons, List.length_take]
    omega
  rw [hwhole, hposition]
  apply spanEnd?_eq_none
  intro name rest ht hname
  rw [List.reverse_append] at hname
  refine absurd hname (not_callName_of_run hletter (fun d hd => ?_) (fun d hd => ?_) hl ht)
  · exact hmore d (List.mem_of_mem_take hd)
  · exact hmore d (List.mem_of_mem_drop hd)

/-- The tokens behind a name that is not known are cut as well. -/
theorem CallName.mem_tokensFrom {pre : Text} (h : CallName pre.reverse name) (hl : Leads after)
    (hk : known name = false)
    (htoken : token ∈ tokensFrom (callSpans known (pre ++ (name ++ after)))
      (pre.length + name.length) after) :
    token ∈ tokensFrom (callSpans known (pre ++ (name ++ after))) pre.length (name ++ after) := by
  have hstart := h.spanEnd?_eq_none hl hk
  by_cases hspelled : Spelled name
  · obtain ⟨c, w, rfl, hcut⟩ := h.cut hspelled hl
    rw [tokensFrom_cut hstart hcut]
    exact List.mem_cons_of_mem _ htoken
  · cases h with
    | subscripted n hletter =>
      exact absurd (spelled_of_letter hletter (some _) n) hspelled
    | marked n hletter => exact absurd (spelled_of_letter hletter none (n + 1)) hspelled
    | @run letter more hletter hmore =>
      have hchars : ∀ d ∈ letter :: more, isNameChar d = true :=
        List.forall_mem_cons.mpr ⟨isNameChar_of_isLetter hletter, hmore⟩
      refine mem_tokensFrom_of_run hchars hl (fun j hj hlt => ?_) htoken
      obtain ⟨m, rfl⟩ := Nat.exists_eq_add_of_le hj
      cases m with
      | zero => exact hstart
      | succ m =>
        apply spanEnd?_inside_run hletter hmore hl
        rw [List.length_cons] at hlt
        omega

/-! ### Fewer names known -/

theorem spanEnd?_eq_none_of_fewer (hmono : ∀ n, known n = true → known' n = true) {pre : Text}
    (hnone : spanEnd? (callSpans known' (pre ++ rest)) pre.length = none) :
    spanEnd? (callSpans known (pre ++ rest)) pre.length = none := by
  cases hspan : spanEnd? (callSpans known (pre ++ rest)) pre.length with
  | none => rfl
  | some stop =>
    obtain ⟨name, after, ht, hcall, hknown, hl, rfl⟩ := spanEnd?_eq_some_iff.mp hspan
    have hspan' := spanEnd?_eq_some_iff.mpr ⟨name, after, ht, hcall, hmono name hknown, hl, rfl⟩
    rw [hspan'] at hnone
    cases hnone

/-- A token stays when fewer names are known, unless it is a call of one that is not. -/
theorem mem_tokensFrom_of_fewer (hmono : ∀ n, known n = true → known' n = true) (pre rest : Text)
    (hk : token ∈ tokensFrom (callSpans known' (pre ++ rest)) pre.length rest)
    (hname : token.kind = .func → known token.text = true) :
    token ∈ tokensFrom (callSpans known (pre ++ rest)) pre.length rest := by
  induction hn : rest.length using Nat.strong_induction_on generalizing pre rest with
  | _ n ih =>
    subst hn
    cases rest with
    | nil => simp [tokensFrom] at hk
    | cons c rest =>
      have hlater : ∀ w after, c :: rest = c :: w ++ after →
          token ∈ tokensFrom (callSpans known' (pre ++ (c :: w ++ after)))
            (pre.length + (c :: w).length) after →
          token ∈ tokensFrom (callSpans known (pre ++ (c :: w ++ after)))
            (pre.length + (c :: w).length) after := by
        intro w after ht hin
        have hshorter : after.length < (c :: rest).length := by
          rw [ht]
          exact length_lt_of_cons_append c w after
        have htail := ih after.length hshorter (pre ++ c :: w) after
        rw [List.length_append, List.append_assoc] at htail
        exact htail hin rfl
      cases hspan : spanEnd? (callSpans known' (pre ++ c :: rest)) pre.length with
      | some stop =>
        obtain ⟨name, after, ht, hcall, hk', hl, rfl⟩ := spanEnd?_eq_some_iff.mp hspan
        obtain ⟨c', w, rfl, -⟩ := hcall.starts
        obtain rfl : c = c' := (List.cons.inj ht).1
        rw [ht] at hk hspan ⊢
        rw [tokensFrom_call hspan] at hk
        cases hknown : known (c :: w) with
        | true =>
          have hspan' := spanEnd?_eq_some_iff.mpr ⟨c :: w, after, rfl, hcall, hknown, hl, rfl⟩
          rw [tokensFrom_call hspan']
          exact List.mem_cons.mpr ((List.mem_cons.mp hk).imp_right (hlater w after ht))
        | false =>
          rcases List.mem_cons.mp hk with rfl | hin
          · simp [hknown] at hname
          · exact hcall.mem_tokensFrom hl hknown (hlater w after ht hin)
      | none =>
        have hspan' := spanEnd?_eq_none_of_fewer hmono hspan
        rcases hcut : cutToken [] pre.length c rest with ⟨k, t, after⟩
        rcases cut_of_cutToken hcut with ⟨w, rfl, rfl, hcut'⟩ | ⟨rfl, rfl, rfl, -, body, rfl, -⟩
        · rw [← List.cons_append] at hk hspan hspan' ⊢
          rw [tokensFrom_cut hspan hcut'] at hk
          rw [tokensFrom_cut hspan' hcut']
          exact List.mem_cons.mpr ((List.mem_cons.mp hk).imp_right (hlater w after rfl))
        · rw [tokensFrom, cutToken_of_none hspan, hcut] at hk
          rw [tokensFrom, cutToken_of_none hspan', hcut]
          exact hk

/-- The calls of a function that stays known are found in the same places. -/
theorem mem_tokens_of_fewer (hsub : ∀ n ∈ functions, n ∈ functions')
    (hk : token ∈ tokens lex functions' t) (hname : token.kind = .func → token.text ∈ functions) :
    token ∈ tokens lex functions t := by
  refine mem_tokensFrom_of_fewer (fun n hn => ?_) [] t hk fun hfunc => ?_
  · exact isCallable_iff.mpr ((isCallable_iff.mp hn).imp_right (hsub n))
  · exact isCallable_iff.mpr (Or.inr (hname hfunc))

end Formulary.Formula
