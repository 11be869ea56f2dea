import Formulary.Eval.Evaluate
import Formulary.Proofs.Eval.Unfolding
import Formulary.Proofs.Text.Distinct

/-! # How evaluation fails

Writing a formula out fails at a token: in the function that it goes into, before it, or
with what was written of it. Evaluation looks names up as it goes, and none of this fails
where every function that is met can be gone into, every call is known and every open
symbol has a value. Beyond that, evaluation stops only where arithmetic does, over the
source text of a formula that is met, or over what the formula reads as.
-/

namespace Formulary

namespace Repertoire

open Relation
open Formula (Token tokens)

variable [Arithmetic] {r : Repertoire} {s s' : Bindings} {active formals : List Name} {name : Name}
  {t u rhs formula source : Text} {k : Token} {ks : List Token} {e : EvalError} {scope : Scope}
  {f : Failure} {body : Name → Bindings → Text → Written} {P : List Name → Text → Prop}

/-! ### Failing tokens -/

/-- How a token fails to be written inside the functions `active`. -/
inductive TokenFails (r : Repertoire) (active : List Name)
    (body : Name → Bindings → Text → Written) (s : Bindings) (k : Token) : EvalError → Prop
  | circular {formals : List Name} {rhs : Text} (htarget : r.target? k = some (formals, rhs))
      (hin : k.text ∈ active) : TokenFails r active body s k (.circular (active ++ [k.text]))
  | inside {formals : List Name} {rhs : Text} {e : EvalError}
      (htarget : r.target? k = some (formals, rhs)) (hout : k.text ∉ active)
      (h : body k.text s rhs = .error e) : TokenFails r active body s k e
  | unread {formals : List Name} {rhs t : Text} {s' : Bindings} {e : EvalError}
      (htarget : r.target? k = some (formals, rhs)) (hbody : body k.text s rhs = .ok (t, s'))
      (h : interpret s' rhs t = .error e) : TokenFails r active body s k e
  | unmade {formals : List Name} {rhs : Text} {x : Arithmetic.Expr} {f : Failure}
      (htarget : r.target? k = some (formals, rhs))
      (h : Arithmetic.routine (formals.map Identifier.ofName) x = .error f) :
      TokenFails r active body s k (.stopped f)
  | unknown (hfunc : k.kind = .func) (hfunction : r.function? k.text = none)
      (hbuiltin : (Builtin.ofName? k.text).isSome = false) :
      TokenFails r active body s k (.noMeaning k.text)

theorem enter_eq_error {write : Written} (h : enter active name write = .error e) :
    name ∈ active ∧ e = .circular (active ++ [name]) ∨ name ∉ active ∧ write = .error e := by
  unfold enter at h
  split at h
  · exact Or.inl ⟨List.contains_iff_mem.mp ‹_›, (Except.error.inj h).symm⟩
  · exact Or.inr ⟨by simpa using ‹¬ active.contains name = true›, h⟩

theorem tokenFails_of_writeAtom (hatom : k.kind = .atom)
    (h : r.writeAtom active body s k.text = .error e) : r.TokenFails active body s k e := by
  unfold writeAtom at h
  split at h
  · cases h
  rename_i hconstant
  split at h
  · rename_i rhs hfunction
    have htarget : r.target? k = some ([], rhs) := by
      rw [target?_of_atom hatom (by simpa using hconstant), hfunction]
      rfl
    rcases error_of_bind h with henter | ⟨_, -, h⟩
    · rcases enter_eq_error henter with ⟨hin, rfl⟩ | ⟨hout, hbody⟩
      · exact .circular htarget hin
      · exact .inside htarget hout hbody
    · cases h
  · cases h

theorem tokenFails_of_writeCall (hfunc : k.kind = .func)
    (h : r.writeCall active body s k.text = .error e) : r.TokenFails active body s k e := by
  unfold writeCall at h
  split at h
  · rename_i formals rhs hfunction
    have htarget : r.target? k = some (formals, rhs) := (target?_of_func hfunc).trans hfunction
    dsimp only at h
    split at h
    · cases h
    rcases error_of_bind h with henter | ⟨⟨t, s'⟩, henter, h⟩
    · rcases enter_eq_error henter with ⟨hin, rfl⟩ | ⟨hout, hbody⟩
      · exact .circular htarget hin
      · exact .inside htarget hout hbody
    rcases error_of_bind h with hread | ⟨x, -, h⟩
    · exact .unread htarget (enter_eq_ok henter).2 hread
    rcases error_of_bind h with hmade | ⟨_, -, h⟩
    · obtain ⟨f, hf, rfl⟩ := error_of_mapError hmade
      exact .unmade htarget hf
    · cases h
  · split at h
    · cases h
    · obtain rfl := Except.error.inj h
      exact .unknown hfunc ‹_› (by simpa using ‹¬ (Builtin.ofName? k.text).isSome = true›)

theorem tokenFails_of_writeToken (h : r.writeToken active body s k = .error e) :
    r.TokenFails active body s k e := by
  unfold writeToken at h
  split at h
  · exact tokenFails_of_writeAtom ‹_› h
  · exact tokenFails_of_writeCall ‹_› h
  all_goals cases h

/-- Writing tokens out fails at one of them. -/
theorem tokenFails_of_writeTokens (h : r.writeTokens active body s ks = .error e) :
    ∃ k ∈ ks, ∃ s, r.TokenFails active body s k e := by
  induction ks generalizing s with
  | nil => cases h
  | cons k ks ih =>
    rw [writeTokens] at h
    rcases error_of_bind h with hfirst | ⟨_, -, h⟩
    · exact ⟨k, List.mem_cons_self, s, tokenFails_of_writeToken hfirst⟩
    · rcases error_of_bind h with hrest | ⟨_, -, h⟩
      · obtain ⟨k', hk', hfails⟩ := ih hrest
        exact ⟨k', List.mem_cons_of_mem k hk', hfails⟩
      · cases h

/-! ### Looking up -/

namespace Expands

end Expands

/-- No symbol is open just if all have values. -/
theorem openNames_eq_nil {e : Arithmetic.Expr} {known : List Name} : openNames e known = [] ↔
    ∀ id ∈ Arithmetic.symbols e, id ∈ known.map Identifier.ofName := by
  have hsort (ts : List Text) : Text.sort ts = [] ↔ ts = [] := by
    rw [← List.length_eq_zero_iff, Text.sort, List.length_mergeSort, List.length_eq_zero_iff]
  rw [openNames, hsort]
  simp [List.filter_eq_nil_iff]

/-- A number is not had of what is undefined, is none, or is not real; or arithmetic fails. -/
theorem quantity_eq_error {complex : Bool} {v : Arithmetic.Approx}
    (h : quantity complex formula v = .error e) :
    e = .singular formula ∨ e = .notNumber formula ∨ e = .notReal formula ∨
      ∃ f, Arithmetic.number v = .error f ∧ f.kind ≠ .operand ∧ e = .stopped f := by
  unfold quantity at h
  split at h
  · exact Or.inl (Except.error.inj h).symm
  · split at h
    · rename_i f hf
      obtain rfl := Except.error.inj h
      by_cases hkind : f.kind = .operand
      · exact Or.inr (Or.inl (if_pos hkind))
      · exact Or.inr (Or.inr (Or.inr ⟨f, hf, hkind, if_neg hkind⟩))
    · split at h
      · split at h
        · cases h
        · exact Or.inr (Or.inr (Or.inl (Except.error.inj h).symm))
      · cases h

/-- A text that writing the formula out can give, wherever it stands. -/
def Source (r : Repertoire) (t u : Text) : Prop :=
  ∃ room active s s', r.write room active s t = .ok (u, s')

/-- The formula, and the right-hand sides of functions that it leads to. -/
def Meets (r : Repertoire) (formula t : Text) : Prop :=
  t = formula ∨ ∃ g formals, r.Reaches formula g ∧ r.function? g = some (formals, t)

/-- Arithmetic stops over a formula that is met: its source text is read with a failure that is not
told of, or no routine can be made of it. -/
inductive Stops (r : Repertoire) (formula : Text) (f : Failure) : Prop
  | reading {t u : Text} {s : Bindings} (hmet : r.Meets formula t) (hu : r.Source t u)
      (h : Arithmetic.read s u = .error f) (htold : isToldOf f.kind = false)
  | making {g : Name} {formals : List Name} {rhs : Text} {x : Arithmetic.Expr}
      (hg : r.Reaches formula g) (hfunction : r.function? g = some (formals, rhs))
      (h : Arithmetic.routine (formals.map Identifier.ofName) x = .error f)

theorem Stops.of_mentioned (h : r.Stops rhs f) (hname : r.Mentions formula name)
    (hfunction : r.function? name = some (formals, rhs)) : r.Stops formula f := by
  cases h with
  | reading hmet hu hread htold =>
    refine .reading (Or.inr ?_) hu hread htold
    rcases hmet with rfl | ⟨g, formals', hg, hfunction'⟩
    · exact ⟨name, formals, hname.reaches, hfunction⟩
    · exact ⟨g, formals', hname.reaches_of_function hfunction hg, hfunction'⟩
  | making hg hfunction' hmade =>
    exact .making (hname.reaches_of_function hfunction hg) hfunction' hmade

theorem stopped_of_interpret (h : interpret s formula source = .error (.stopped f)) :
    Arithmetic.read s source = .error f ∧ isToldOf f.kind = false := by
  unfold interpret at h
  split at h
  · rename_i f' hf
    have h := Except.error.inj h
    split at h
    · cases h
    · obtain rfl := EvalError.stopped.inj h
      exact ⟨hf, by simpa using ‹¬ isToldOf f'.kind = true›⟩
  · cases h
  · cases h

theorem stops_of_writeTokens
    (hsource : ∀ name s rhs t s', body name s rhs = .ok (t, s') → r.Source rhs t)
    (hbody : ∀ name s rhs, body name s rhs = .error (.stopped f) → r.Stops rhs f)
    (h : r.writeTokens active body s (tokens r.lexicon r.functionNames formula) =
      .error (.stopped f)) : r.Stops formula f := by
  obtain ⟨k, hk, s, hfails⟩ := tokenFails_of_writeTokens h
  have hfunction {formals : List Name} {rhs : Text} (htarget : r.target? k = some (formals, rhs)) :
      r.function? k.text = some (formals, rhs) := by
    rcases target?_cases htarget with ⟨-, -, rfl, h⟩ | ⟨-, h⟩ <;> exact h
  cases hfails with
  | inside htarget _ hw =>
    exact (hbody _ _ _ hw).of_mentioned (mentions_of_target? hk htarget) (hfunction htarget)
  | unread htarget hw hread =>
    obtain ⟨hread, htold⟩ := stopped_of_interpret hread
    have hreach := (mentions_of_target? hk htarget).reaches
    exact .reading (Or.inr ⟨_, _, hreach, hfunction htarget⟩) (hsource _ _ _ _ _ hw) hread htold
  | unmade htarget hmade =>
    exact .making (mentions_of_target? hk htarget).reaches (hfunction htarget) hmade

theorem stops_of_write {room : Nat} (h : r.write room active s formula = .error (.stopped f)) :
    r.Stops formula f := by
  induction room generalizing active s formula with
  | zero => exact stops_of_writeTokens (fun _ _ _ _ _ h => by cases h) (fun _ _ _ h => by cases h) h
  | succ room ih =>
    exact stops_of_writeTokens (fun _ _ _ _ _ h => ⟨room, _, _, _, h⟩) (fun _ _ _ h => ih h) h

theorem stops_of_read (h : r.read formula = .error (.stopped f)) : r.Stops formula f := by
  rcases error_of_bind h with hw | ⟨⟨u, s⟩, hw, h⟩
  · exact stops_of_write hw
  · obtain ⟨hread, htold⟩ := stopped_of_interpret h
    exact .reading (Or.inl rfl) ⟨_, _, _, _, hw⟩ hread htold

/-- Arithmetic stops for values in scope: over a formula that is met, over putting them in and
working out, or over the number that was worked out. -/
inductive StopsFor (r : Repertoire) (formula : Text) (scope : Scope) (f : Failure) : Prop
  | writing (h : r.Stops formula f)
  | computing {x : Arithmetic.Expr} (hread : r.read formula = .ok x)
      (h : compute x (identified scope) = .error f)
  | number {x : Arithmetic.Expr} {v : Arithmetic.Approx} (hread : r.read formula = .ok x)
      (hv : compute x (identified scope) = .ok v) (h : Arithmetic.number v = .error f)
      (hkind : f.kind ≠ .operand)

theorem stopsFor_of_evaluate (h : r.evaluate formula scope = .error (.stopped f)) :
    r.StopsFor formula scope f := by
  rcases error_of_bind h with hread | ⟨x, hread, h⟩
  · exact .writing (stops_of_read hread)
  split at h
  · rcases error_of_bind h with hv | ⟨v, hv, h⟩
    · obtain ⟨f', hf, heq⟩ := error_of_mapError hv
      exact .computing hread (EvalError.stopped.inj heq ▸ hf)
    · rcases quantity_eq_error h with heq | heq | heq | ⟨f', hf, hkind, heq⟩
      · cases heq
      · cases heq
      · cases heq
      · obtain rfl := EvalError.stopped.inj heq
        exact .number hread (ok_of_mapError hv) hf hkind
  · cases h

end Repertoire

end Formulary
