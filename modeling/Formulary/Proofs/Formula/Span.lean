import Formulary.Proofs.Formula.Name

/-! # Spans of calls

The spans found by reading backwards from every bracket are those of the callable
names followed by one. Since a place starts one name at most, whether a call
starts there can be told from the text around it.
-/

namespace Formulary.Formula

open Text (Stops)

variable {known : Name → Bool} {before t rest name : Text}

theorem stops_marks_append {p : Char → Bool} (n : Nat) (hp : p '\'' = false) (ht : Stops p t) :
    Stops p (marks n ++ t) := by
  cases n with
  | zero => exact ht
  | succ n => simpa [Stops, List.replicate_succ] using hp

/-- No gap stands between a name and the place it was read from. -/
theorem CallName.stops_reverse (h : CallName rest name) : Stops isGap (name.reverse ++ rest) := by
  cases h with
  | subscripted n =>
    rw [reverse_subscripted]
    exact stops_marks_append n (by decide) (by simp [Stops, isGap])
  | marked n =>
    rw [reverse_marked]
    simp [Stops, isGap, List.replicate_succ]
  | run hletter hmore =>
    apply Text.stops_append (by simp)
    intro c hc
    have hn := isNameChar_of_mem_reverse hletter hmore c hc
    rw [Bool.eq_false_iff]
    intro hg
    simp [isNameChar_of_gap (Or.inl hg)] at hn

/-- The span of the callable name that ends a text, given the reversed text. -/
def IsSpanAt (known : Name → Bool) (core : Text) (span : Nat × Nat) : Prop :=
  ∃ name, nameBefore? core = some name ∧ known name = true ∧
    span = (core.length - name.length, core.length)

/-- Each bracket gives the span of the name before it, gaps left out. -/
theorem mem_callSpansFrom {i : Nat} {span : Nat × Nat} :
    span ∈ callSpansFrom known before i t ↔ ∃ u v, t = u ++ '(' :: v ∧
      IsSpanAt known ((u.reverse ++ before).dropWhile isGap) span := by
  induction t generalizing before i with
  | nil => simp [callSpansFrom]
  | cons c t ih =>
    have hsplit : (∃ u v, c :: t = u ++ '(' :: v ∧
        IsSpanAt known ((u.reverse ++ before).dropWhile isGap) span) ↔
        (c = '(' ∧ IsSpanAt known (before.dropWhile isGap) span) ∨
          span ∈ callSpansFrom known (c :: before) (i + 1) t := by
      rw [ih]
      constructor
      · rintro ⟨u, v, ht, hspan⟩
        cases u with
        | nil => exact Or.inl ⟨(List.cons.inj ht).1, hspan⟩
        | cons d u =>
          obtain ⟨rfl, rfl⟩ := List.cons.inj ht
          exact Or.inr ⟨u, v, rfl, by simpa using hspan⟩
      · rintro (⟨rfl, hspan⟩ | ⟨u, v, rfl, hspan⟩)
        · exact ⟨[], t, rfl, hspan⟩
        · exact ⟨c :: u, v, rfl, by simpa using hspan⟩
    have hgap : (fun b => b == ' ' || b == '\t') = isGap := rfl
    rw [hsplit, callSpansFrom, IsSpanAt]
    simp only [hgap]
    by_cases hc : c = '('
    · cases hn : nameBefore? (before.dropWhile isGap) with
      | none => simp [hc]
      | some name => by_cases hk : known name = true <;> simp [hc, hk]
    · simp [hc]

/-- A text is split at the name that ends it, but for gaps. -/
theorem split_of_dropWhile {u : Text} (h : u.reverse.dropWhile isGap = name.reverse ++ rest) :
    u = rest.reverse ++ (name ++ (u.reverse.takeWhile isGap).reverse) := by
  have hu := congrArg List.reverse
    (List.takeWhile_append_dropWhile (p := isGap) (l := u.reverse))
  rw [h] at hu
  simpa using hu.symm

theorem leads_of_gap {u v : Text} : Leads ((u.takeWhile isGap).reverse ++ '(' :: v) := by
  rw [Leads, List.dropWhile_append_of_pos fun c hc =>
    List.mem_takeWhile_imp (List.mem_reverse.mp hc)]
  rfl

/-- The spans of calls: callable names that a bracket follows. -/
theorem mem_callSpans_iff {a b : Nat} :
    (a, b) ∈ callSpans known t ↔ ∃ pre name after, t = pre ++ (name ++ after) ∧
      CallName pre.reverse name ∧ known name = true ∧ Leads after ∧ a = pre.length ∧
      b = pre.length + name.length := by
  unfold callSpans
  rw [mem_callSpansFrom]
  simp only [List.append_nil]
  constructor
  · rintro ⟨u, v, rfl, name, hn, hk, hs⟩
    obtain ⟨rest, hcore, hname⟩ := callName_of_nameBefore? hn
    rw [hcore] at hs
    obtain ⟨rfl, rfl⟩ := Prod.mk.inj hs
    refine ⟨rest.reverse, name, (u.reverse.takeWhile isGap).reverse ++ '(' :: v, ?_, by simpa, hk,
      leads_of_gap, by simp, by simp [Nat.add_comm]⟩
    calc u ++ '(' :: v
        = rest.reverse ++ (name ++ (u.reverse.takeWhile isGap).reverse) ++ '(' :: v :=
          congrArg (· ++ '(' :: v) (split_of_dropWhile hcore)
      _ = rest.reverse ++ (name ++ ((u.reverse.takeWhile isGap).reverse ++ '(' :: v)) := by simp
  · rintro ⟨pre, name, after, rfl, hname, hk, hl, rfl, rfl⟩
    obtain ⟨v, hv⟩ := List.head?_eq_some_iff.mp hl
    have hafter : after = after.takeWhile isGap ++ '(' :: v := by
      rw [← hv, List.takeWhile_append_dropWhile]
    have hcore : (pre ++ name ++ after.takeWhile isGap).reverse.dropWhile isGap =
        name.reverse ++ pre.reverse := by
      rw [List.reverse_append, List.reverse_append]
      exact Text.dropWhile_append_stop
        (fun c hc => List.mem_takeWhile_imp (List.mem_reverse.mp hc)) hname.stops_reverse
    refine ⟨pre ++ name ++ after.takeWhile isGap, v, ?_, name, ?_, hk, ?_⟩
    · calc pre ++ (name ++ after)
          = pre ++ (name ++ (after.takeWhile isGap ++ '(' :: v)) :=
            congrArg (fun t => pre ++ (name ++ t)) hafter
        _ = pre ++ name ++ after.takeWhile isGap ++ '(' :: v := by simp
    · rw [hcore]
      exact nameBefore?_of_callName hname
    · rw [hcore]
      simp [Nat.add_comm]

/-- Whether a call starts at a place can be told from the text before it and the text after. -/
theorem spanEnd?_eq_some_iff {pre : Text} {stop : Nat} :
    spanEnd? (callSpans known (pre ++ rest)) pre.length = some stop ↔
      ∃ name after, rest = name ++ after ∧ CallName pre.reverse name ∧ known name = true ∧
        Leads after ∧ stop = pre.length + name.length := by
  have hmem : ∀ s : Nat × Nat, s ∈ callSpans known (pre ++ rest) → s.1 = pre.length →
      ∃ name after, rest = name ++ after ∧ CallName pre.reverse name ∧ known name = true ∧
        Leads after ∧ s.2 = pre.length + name.length := by
    rintro ⟨a, b⟩ hs rfl
    obtain ⟨pre', name, after, ht, hname, hk, hl, ha, hb⟩ := mem_callSpans_iff.mp hs
    obtain ⟨rfl, rfl⟩ := List.append_inj ht ha
    exact ⟨name, after, rfl, hname, hk, hl, hb⟩
  unfold spanEnd?
  constructor
  · intro h
    obtain ⟨s, hs, rfl⟩ := Option.map_eq_some_iff.mp h
    exact hmem s (List.mem_reverse.mp (List.mem_of_find?_eq_some hs))
      (by simpa using List.find?_some hs)
  · rintro ⟨name, after, rfl, hname, hk, hl, rfl⟩
    have hin : (pre.length, pre.length + name.length) ∈ callSpans known (pre ++ (name ++ after)) :=
      mem_callSpans_iff.mpr ⟨pre, name, after, rfl, hname, hk, hl, rfl, rfl⟩
    cases hf : (callSpans known (pre ++ (name ++ after))).reverse.find?
        (fun s => s.1 == pre.length) with
    | none => simpa using List.find?_eq_none.mp hf _ (List.mem_reverse.mpr hin)
    | some s =>
      obtain ⟨name', after', ht, hname', -, hl', hs⟩ := hmem s
        (List.mem_reverse.mp (List.mem_of_find?_eq_some hf)) (by simpa using List.find?_some hf)
      have he : name' = name := by
        rw [← frontName_of_callName hname' hl', ← ht, frontName_of_callName hname hl]
      simp [hs, he]

end Formulary.Formula
