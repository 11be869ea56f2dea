import Formulary.Proofs.Text.Distinct
import Formulary.Proofs.Formula.WrittenOut

/-! # What is read off a formula

Free symbols and calls are read off the tokens, so for a formula with its products
written out they stay the same while the functions it calls are there.
-/

namespace Formulary.Formula

variable {lex : Lexicon} {functions functions' : List Name} {arities arities' : Arities} {t : Text}

/-- The names of user functions in call position. -/
def userCalls (lex : Lexicon) (functions : List Name) (t : Text) : List Name :=
  (calledNames lex functions t).filter fun name => !lex.isFunction name

theorem freeSymbols_congr (h : tokens lex functions' t = tokens lex functions t) (complex : Bool)
    (bound : List Name) :
    freeSymbols lex complex bound functions' t = freeSymbols lex complex bound functions t := by
  rw [freeSymbols, freeSymbols, h]

theorem calledNames_congr (h : tokens lex functions' t = tokens lex functions t) :
    calledNames lex functions' t = calledNames lex functions t := by
  rw [calledNames, calledNames, h]

theorem userCalls_congr (h : tokens lex functions' t = tokens lex functions t) :
    userCalls lex functions' t = userCalls lex functions t := by
  rw [userCalls, userCalls, calledNames_congr h]

theorem mem_userCalls {name : Name} : name ∈ userCalls lex functions t ↔
    name ∈ calledNames lex functions t ∧ lex.isFunction name = false := by
  simp [userCalls]

theorem map_name_filterMap {ks : List Token} (hks : ∀ k ∈ ks, k ∈ tokens lex functions t) :
    (ks.filterMap (callOf? lex arities t)).map Call.name =
      ((ks.filter fun k => k.kind = .func).map Token.text).filter
        fun name => !lex.isFunction name := by
  induction ks with
  | nil => rfl
  | cons k ks ih =>
    have hrest := ih fun k hk => hks k (List.mem_cons_of_mem _ hk)
    by_cases hfunc : k.kind = .func
    · cases hname : lex.isFunction k.text with
      | false =>
        obtain ⟨c, hc, hcname⟩ :=
          callOf?_isSome arities (hks k List.mem_cons_self) hfunc hname
        simp [hc, hcname, hfunc, hname, hrest]
      | true => simp [callOf?, hfunc, hname, hrest]
    · simp [callOf?, hfunc, hrest]

/-- The calls of a formula are those of the user functions named in it. -/
theorem map_name_calls (lex : Lexicon) (arities : Arities) (t : Text) :
    (calls lex arities t).map Call.name = userCalls lex arities.names t :=
  map_name_filterMap fun _ h => h

theorem expected_of_callOf? {k : Token} {c : Call} (h : callOf? lex arities t k = some c) :
    c.expected = arities.get? c.name := by
  unfold callOf? at h
  split at h
  · obtain ⟨opening, -, rfl⟩ := Option.map_eq_some_iff.mp h
    rfl
  · simp at h

theorem expected_of_mem_calls {c : Call} (h : c ∈ calls lex arities t) :
    c.expected = arities.get? c.name := by
  obtain ⟨k, -, hk⟩ := List.mem_filterMap.mp h
  exact expected_of_callOf? hk

/-- The calls stay the same while the functions called keep their arities. -/
theorem calls_congr (h : tokens lex arities'.names t = tokens lex arities.names t)
    (harity : ∀ name ∈ userCalls lex arities.names t, arities'.get? name = arities.get? name) :
    calls lex arities' t = calls lex arities t := by
  rw [calls, calls, callsAmong, callsAmong, h]
  apply List.filterMap_congr
  intro k hk
  by_cases hcall : k.kind = .func ∧ lex.isFunction k.text = false
  · have hname : k.text ∈ userCalls lex arities.names t :=
      mem_userCalls.mpr ⟨mem_calledNames.mpr ⟨k, hk, hcall.1, rfl⟩, hcall.2⟩
    simp [callOf?, harity _ hname]
  · have : ¬ (decide (k.kind = .func) && !lex.isFunction k.text) = true := by simpa using hcall
    simp only [callOf?, if_neg this]

/-! ### Callable names -/

theorem Arities.isSome_get? {name : Name} :
    (arities.get? name).isSome = true ↔ name ∈ arities.names := by
  simp [Arities.get?, Arities.names, List.find?_isSome]

theorem isCallable_iff {name : Name} :
    isCallable lex functions name = true ↔ lex.isFunction name = true ∨ name ∈ functions := by
  simp [isCallable]

/-- Whatever the text, its calls are calls of callable names. -/
theorem isCallable_of_mem_calledNames {name : Name} (h : name ∈ calledNames lex functions t) :
    isCallable lex functions name = true := by
  obtain ⟨ps, hps, rfl, htokens⟩ := reads_tokens lex functions t
  obtain ⟨k, hk, hfunc, rfl⟩ := mem_calledNames.mp h
  rw [htokens] at hk
  exact hps.known_of_lay hk hfunc

theorem mem_of_mem_userCalls {name : Name} (h : name ∈ userCalls lex functions t) :
    name ∈ functions := by
  obtain ⟨hcall, hname⟩ := mem_userCalls.mp h
  rcases isCallable_iff.mp (isCallable_of_mem_calledNames hcall) with hbuiltin | hmem
  · simp [hname] at hbuiltin
  · exact hmem

/-- Written out, a formula has the same tokens wherever its user functions are known. -/
theorem WrittenOut.of_userCalls (h : WrittenOut lex functions t)
    (hcalls : ∀ name ∈ userCalls lex functions t, name ∈ functions') :
    tokens lex functions' t = tokens lex functions t ∧ WrittenOut lex functions' t := by
  refine h.congr fun name hname => isCallable_iff.mpr ?_
  cases hbuiltin : lex.isFunction name with
  | true => exact Or.inl rfl
  | false => exact Or.inr (hcalls name (mem_userCalls.mpr ⟨hname, hbuiltin⟩))

end Formulary.Formula
