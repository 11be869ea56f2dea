import Mathlib.Data.List.Nodup
import Mathlib.Logic.Relation
import Formulary.Proofs.Eval.Source

/-! # Writing out ends

Writing a formula out goes into the functions that it mentions, and from these into
others. It is told here without a bound on the depth, as a relation that has a derivation
only where writing ends. It ends for all functions, however they mention each other: the
functions being written out are distinct, and there are never more of them than the limit.
Where it ends without an error, no function that the formula leads to leads to itself.
-/

namespace Formulary.Repertoire

open Relation
open Formula (Token tokens)

/-! ### Functions that a formula leads to -/

/-- The function that a token stands for: an atom for one without arguments, unless the name is
reserved, and a call for any. -/
def target? (r : Repertoire) (k : Token) : Option (List Name × Text) :=
  match k.kind with
  | .atom =>
    if r.lexicon.isConstant r.complex k.text then none
    else (r.function? k.text).filter fun f => f.1.isEmpty
  | .func => r.function? k.text
  | _ => none

variable {r : Repertoire} {k : Token} {f g name : Name} {formula rhs : Text}

theorem target?_of_atom (hatom : k.kind = .atom)
    (hconstant : r.lexicon.isConstant r.complex k.text = false) :
    r.target? k = (r.function? k.text).filter fun f => f.1.isEmpty := by
  unfold target?
  rw [hatom]
  exact if_neg (by simp [hconstant])

theorem target?_of_func (hfunc : k.kind = .func) : r.target? k = r.function? k.text := by
  unfold target?
  rw [hfunc]

/-- A token stands for a function as an atom, if there are no formals, or as a call. -/
theorem target?_cases {formals : List Name} (h : r.target? k = some (formals, rhs)) :
    (k.kind = .atom ∧ r.lexicon.isConstant r.complex k.text = false ∧ formals = [] ∧
      r.function? k.text = some ([], rhs)) ∨
    (k.kind = .func ∧ r.function? k.text = some (formals, rhs)) := by
  cases hkind : k.kind with
  | atom =>
    cases hconstant : r.lexicon.isConstant r.complex k.text with
    | true =>
      rw [target?, hkind] at h
      simp [hconstant] at h
    | false =>
      rw [target?_of_atom hkind hconstant] at h
      obtain ⟨hfunction, hempty⟩ := Option.filter_eq_some_iff.mp h
      obtain rfl : formals = [] := by simpa using hempty
      exact Or.inl ⟨rfl, rfl, rfl, hfunction⟩
  | func => exact Or.inr ⟨rfl, target?_of_func hkind ▸ h⟩
  | _ =>
    rw [target?, hkind] at h
    cases h

/-- A formula mentions a function: one without arguments as an atom, or any by a call. -/
def Mentions (r : Repertoire) (formula : Text) (name : Name) : Prop :=
  ∃ k ∈ tokens r.lexicon r.functionNames formula, k.text = name ∧ (r.target? k).isSome = true

/-- A function refers to another one in its right-hand side. -/
def Refers (r : Repertoire) (f g : Name) : Prop :=
  ∃ formals rhs, r.function? f = some (formals, rhs) ∧ r.Mentions rhs g

/-- A formula mentions a function, or one that leads to it. -/
def Reaches (r : Repertoire) (formula : Text) (f : Name) : Prop :=
  ∃ g, r.Mentions formula g ∧ ReflTransGen r.Refers g f

theorem mentions_of_target? {formals : List Name}
    (hk : k ∈ tokens r.lexicon r.functionNames formula)
    (htarget : r.target? k = some (formals, rhs)) : r.Mentions formula k.text :=
  ⟨k, hk, rfl, by rw [htarget]; rfl⟩

theorem Mentions.reaches (h : r.Mentions formula name) : r.Reaches formula name :=
  ⟨name, h, .refl⟩

/-- A formula leads to all that a function it mentions leads to. -/
theorem Mentions.reaches_of_function {formals : List Name} (h : r.Mentions formula name)
    (hfunction : r.function? name = some (formals, rhs)) (hf : r.Reaches rhs f) :
    r.Reaches formula f := by
  obtain ⟨g, hmention, hpath⟩ := hf
  exact ⟨name, h, .head ⟨formals, rhs, hfunction, hmention⟩ hpath⟩

/-- Every chain of references from a function ends. -/
def Grounded (r : Repertoire) (f : Name) : Prop := Acc (fun g f => r.Refers f g) f

namespace Grounded

theorem reached (h : r.Grounded g) (hr : ReflTransGen r.Refers g f) : r.Grounded f := by
  induction hr with
  | refl => exact h
  | tail _ hstep ih => exact ih.inv hstep

/-- On a cycle each function has one before it. -/
theorem not_cyclic (h : r.Grounded f) : ¬ TransGen r.Refers f f := by
  induction h with
  | intro f _ ih =>
    intro hcycle
    obtain ⟨g, hstep, hback⟩ := TransGen.head'_iff.mp hcycle
    exact ih g hstep (.tail' hback hstep)

end Grounded

theorem routineId_inj : routineId f = routineId g ↔ f = g := by
  refine ⟨fun h => ?_, congrArg routineId⟩
  exact Identifier.ofName_inj.mp (List.append_cancel_left h)

/-! ### One token -/

variable [Arithmetic]

/-- The right-hand side that writing a token out goes into. A called function is written out
once. -/
def entered? (r : Repertoire) (s : Bindings) (k : Token) : Option Text :=
  if k.kind = .func ∧ (s.routine? (routineId k.text)).isSome then none
  else (r.target? k).map Prod.snd

/-- What a token is written as when `inside` is written for the function that it goes into. -/
def around (r : Repertoire) (s : Bindings) (k : Token) (inside : Written) : Written :=
  r.writeToken [] (fun _ _ _ => inside) s k

variable {s s' mid : Bindings} {active : List Name} {ks : List Token} {t u : Text} {e : EvalError}
  {written : Written} {body : Name → Bindings → Text → Written}

/-- A token that goes into a function is an atom for one without arguments, or a call of one that
has no routine yet. -/
theorem entered?_cases (hk : r.entered? s k = some rhs) :
    (k.kind = .atom ∧ r.lexicon.isConstant r.complex k.text = false ∧
      r.function? k.text = some ([], rhs)) ∨
    (k.kind = .func ∧ (s.routine? (routineId k.text)).isSome = false ∧
      ∃ formals, r.function? k.text = some (formals, rhs)) := by
  unfold entered? at hk
  split at hk
  · cases hk
  rename_i hmade
  obtain ⟨⟨formals, rhs'⟩, htarget, rfl⟩ := Option.map_eq_some_iff.mp hk
  rcases target?_cases htarget with ⟨hatom, hconstant, -, hfunction⟩ | ⟨hfunc, hfunction⟩
  · exact Or.inl ⟨hatom, hconstant, hfunction⟩
  · exact Or.inr ⟨hfunc, by simpa [hfunc] using hmade, formals, hfunction⟩

/-- A token that goes into a function fails if it is in it already, and else is written around what
is written for the function. -/
theorem writeToken_of_entered (hk : r.entered? s k = some rhs) :
    r.writeToken active body s k =
      if k.text ∈ active then .error (.circular (active ++ [k.text]))
      else r.around s k (body k.text s rhs) := by
  rcases entered?_cases hk with ⟨hkind, hconstant, hfunction⟩ | ⟨hkind, hmade, formals, hfunction⟩
  · by_cases hin : k.text ∈ active
    · simp [writeToken, hkind, writeAtom, hconstant, hfunction, enter, hin, Bind.bind, Except.bind]
    · simp [around, writeToken, hkind, writeAtom, hconstant, hfunction, enter, hin]
  · by_cases hin : k.text ∈ active
    · simp [writeToken, hkind, writeCall, hmade, hfunction, enter, hin, Bind.bind, Except.bind]
    · simp [around, writeToken, hkind, writeCall, hmade, hfunction, enter, hin]

@[simp] theorem routines_meet (s : Bindings) (id : Text) : (meet s id).routines = s.routines := by
  unfold meet
  split <;> rfl

/-- A token that goes into no function is written the same inside any, and makes no routine. -/
theorem writeToken_of_kept (hk : r.entered? s k = none) (inside : Written) :
    r.writeToken active body s k = r.around s k inside ∧
      ∀ u s', r.around s k inside = .ok (u, s') → s'.routines = s.routines := by
  cases hkind : k.kind with
  | atom =>
    cases hconstant : r.lexicon.isConstant r.complex k.text with
    | true => simp_all [around, writeToken, writeAtom]
    | false =>
      have hnone : (r.function? k.text).filter (fun f => f.1.isEmpty) = none := by
        rw [← target?_of_atom hkind hconstant]
        simpa [entered?, hkind] using hk
      cases hfunction : r.function? k.text with
      | none => simp +contextual [around, writeToken, hkind, writeAtom, hconstant, hfunction]
      | some f =>
        obtain ⟨_ | ⟨formal, formals⟩, rhs⟩ := f
        · simp [hfunction] at hnone
        · simp +contextual [around, writeToken, hkind, writeAtom, hconstant, hfunction]
  | func =>
    cases hfunction : r.function? k.text with
    | none =>
      simp only [around, writeToken, hkind, writeCall, hfunction, true_and]
      split <;> simp +contextual
    | some f =>
      have hmade : (s.routine? (routineId k.text)).isSome = true := by
        by_contra hnot
        simp [entered?, hkind, hnot, target?, hfunction] at hk
      simp +contextual [around, writeToken, hkind, writeCall, hfunction, hmade]
  | _ => simp_all [around, writeToken]

/-- A function that could not be written out leaves nothing to write around. -/
theorem around_error (hk : r.entered? s k = some rhs) : r.around s k (.error e) = .error e := by
  rcases entered?_cases hk with ⟨hkind, hconstant, hfunction⟩ | ⟨hkind, hmade, formals, hfunction⟩
  · simp [around, writeToken, hkind, writeAtom, hconstant, hfunction, enter, Bind.bind, Except.bind]
  · simp [around, writeToken, hkind, writeCall, hmade, hfunction, enter, Bind.bind, Except.bind]

/-- At most the function that was written out is made a routine. -/
theorem ok_of_around {inside : Written} (hk : r.entered? s k = some rhs)
    (h : r.around s k inside = .ok (u, s')) :
    ∃ t mid, inside = .ok (t, mid) ∧
      ∀ id, (s'.routine? id).isSome → (mid.routine? id).isSome ∨ id = routineId k.text := by
  rcases entered?_cases hk with ⟨hkind, hconstant, hfunction⟩ | ⟨hkind, hmade, formals, hfunction⟩
  · simp only [around, writeToken, hkind, writeAtom, hconstant, hfunction] at h
    obtain ⟨⟨t, mid⟩, henter, h⟩ := ok_of_bind h
    obtain ⟨rfl, rfl⟩ := Prod.mk.inj (Except.ok.inj h)
    exact ⟨t, mid, (enter_eq_ok henter).2, fun _ => Or.inl⟩
  · simp only [around, writeToken, hkind, writeCall, hmade, hfunction] at h
    obtain ⟨⟨t, mid⟩, henter, h⟩ := ok_of_bind h
    obtain ⟨e, -, h⟩ := ok_of_bind h
    obtain ⟨made, -, h⟩ := ok_of_bind h
    obtain ⟨rfl, rfl⟩ := Prod.mk.inj (Except.ok.inj h)
    refine ⟨t, mid, (enter_eq_ok henter).2, fun id hid => ?_⟩
    by_cases hname : routineId k.text = id
    · exact Or.inr hname.symm
    · refine Or.inl ?_
      simpa [Setting.routine?, hname] using hid

/-! ### Writing told without a bound -/

/-- Tokens written out inside the functions `active`, to the end. The last list gathers the
functions under way each time that one more is gone into. -/
inductive Unfolds (r : Repertoire) :
    List Name → Bindings → List Token → Written → List (List Name) → Prop where
  | nil {active : List Name} {s : Bindings} : Unfolds r active s [] (.ok ([], s)) []
  | keeps {active : List Name} {s s' : Bindings} {k : Token} {ks : List Token} {t : Text}
      {inside rest : Written} {trails : List (List Name)}
      (hk : r.entered? s k = none) (hw : r.around s k inside = .ok (t, s'))
      (hrest : Unfolds r active s' ks rest trails) :
      Unfolds r active s (k :: ks) (rest.map fun p => (t ++ p.1, p.2)) trails
  | breaks {active : List Name} {s : Bindings} {k : Token} {ks : List Token} {e : EvalError}
      {inside : Written} (hk : r.entered? s k = none) (hw : r.around s k inside = .error e) :
      Unfolds r active s (k :: ks) (.error e) []
  | circles {active : List Name} {s : Bindings} {k : Token} {ks : List Token} {rhs : Text}
      (hk : r.entered? s k = some rhs) (hin : k.text ∈ active) :
      Unfolds r active s (k :: ks) (.error (.circular (active ++ [k.text]))) []
  | sinks {active : List Name} {s : Bindings} {k : Token} {ks : List Token} {rhs : Text}
      (hk : r.entered? s k = some rhs) (hout : k.text ∉ active)
      (hfull : depthLimit ≤ active.length) : Unfolds r active s (k :: ks) (.error .tooDeep) []
  | fails {active : List Name} {s : Bindings} {k : Token} {ks : List Token} {rhs : Text}
      {e : EvalError} {inside : Written} {trails : List (List Name)}
      (hk : r.entered? s k = some rhs) (hout : k.text ∉ active)
      (hroom : active.length < depthLimit)
      (hbody : Unfolds r (active ++ [k.text]) s (tokens r.lexicon r.functionNames rhs) inside
        trails)
      (hw : r.around s k inside = .error e) :
      Unfolds r active s (k :: ks) (.error e) ((active ++ [k.text]) :: trails)
  | enters {active : List Name} {s s' : Bindings} {k : Token} {ks : List Token} {t rhs : Text}
      {inside rest : Written} {trails trails' : List (List Name)}
      (hk : r.entered? s k = some rhs) (hout : k.text ∉ active)
      (hroom : active.length < depthLimit)
      (hbody : Unfolds r (active ++ [k.text]) s (tokens r.lexicon r.functionNames rhs) inside
        trails)
      (hw : r.around s k inside = .ok (t, s')) (hrest : Unfolds r active s' ks rest trails') :
      Unfolds r active s (k :: ks) (rest.map fun p => (t ++ p.1, p.2))
        ((active ++ [k.text]) :: (trails ++ trails'))

/-- What the bounded writing writes for the functions that it goes into. -/
def inside (r : Repertoire) (active : List Name) : Nat → Name → Bindings → Text → Written
  | 0, _, _, _ => .error .tooDeep
  | room + 1, name, s, rhs => r.write room (active ++ [name]) s rhs

theorem write_eq {room : Nat} {formula : Text} : r.write room active s formula =
    r.writeTokens active (r.inside active room) s (tokens r.lexicon r.functionNames formula) := by
  cases room <;> rfl

/-- With room for one function more, its right-hand side is written as any formula is. -/
theorem inside_eq {room : Nat} (hroom : active.length + room = depthLimit)
    (hless : active.length < depthLimit) (name : Name) (s : Bindings) (rhs : Text) :
    ∃ less, (active ++ [name]).length + less = depthLimit ∧
      r.inside active room name s rhs = r.writeTokens (active ++ [name])
        (r.inside (active ++ [name]) less) s (tokens r.lexicon r.functionNames rhs) := by
  cases room with
  | zero => omega
  | succ less =>
    refine ⟨less, ?_, write_eq⟩
    rw [List.length_append, List.length_singleton]
    omega

theorem writeTokens_cons_ok (h : r.writeToken active body s k = .ok (t, mid)) :
    r.writeTokens active body s (k :: ks) =
      (r.writeTokens active body mid ks).map fun p => (t ++ p.1, p.2) := by
  rw [writeTokens, h]
  show r.writeTokens active body mid ks >>= _ = _
  cases r.writeTokens active body mid ks <;> rfl

theorem writeTokens_cons_error (h : r.writeToken active body s k = .error e) :
    r.writeTokens active body s (k :: ks) = .error e := by
  rw [writeTokens, h]
  rfl

namespace Unfolds

variable {trails : List (List Name)}

/-- The functions under way are distinct, and the limit holds for them. -/
theorem bounded (h : r.Unfolds active s ks written trails) (hactive : active.Nodup) :
    ∀ trail ∈ trails, trail.Nodup ∧ trail.length ≤ depthLimit := by
  have hdeeper {active : List Name} {name : Name} (hactive : active.Nodup) (hout : name ∉ active)
      (hroom : active.length < depthLimit) :
      (active ++ [name]).Nodup ∧ (active ++ [name]).length ≤ depthLimit := by
    refine ⟨?_, by simpa using Nat.succ_le_of_lt hroom⟩
    rw [← List.concat_eq_append]
    exact hactive.concat hout
  induction h with
  | nil => simp
  | keeps _ _ _ ih => exact ih hactive
  | breaks => simp
  | circles => simp
  | sinks => simp
  | fails _ hout hroom _ _ ih =>
    have hentered := hdeeper hactive hout hroom
    exact List.forall_mem_cons.mpr ⟨hentered, ih hentered.1⟩
  | enters _ hout hroom _ _ _ ih ihrest =>
    have hentered := hdeeper hactive hout hroom
    exact List.forall_mem_cons.mpr
      ⟨hentered, List.forall_mem_append.mpr ⟨ih hentered.1, ihrest hactive⟩⟩

/-- Where the bound leaves room for as many functions as the limit does, both writings agree. -/
theorem eq_writeTokens {room : Nat} (h : r.Unfolds active s ks written trails)
    (hroom : active.length + room = depthLimit) :
    written = r.writeTokens active (r.inside active room) s ks := by
  induction h generalizing room with
  | nil => rfl
  | keeps hk hw _ ih =>
    rw [writeTokens_cons_ok ((writeToken_of_kept hk _).1.trans hw), ih hroom]
  | breaks hk hw => exact (writeTokens_cons_error ((writeToken_of_kept hk _).1.trans hw)).symm
  | circles hk hin =>
    refine (writeTokens_cons_error ?_).symm
    rw [writeToken_of_entered hk, if_pos hin]
  | sinks hk hout hfull =>
    -- The bound and the functions under way make up the limit, so the bound is spent just here.
    obtain rfl : room = 0 := by omega
    refine (writeTokens_cons_error ?_).symm
    rw [writeToken_of_entered hk, if_neg hout]
    exact around_error hk
  | @fails active s k ks rhs e inside trails hk hout hless _ hw ih =>
    obtain ⟨less, hlength, hinside⟩ := r.inside_eq hroom hless k.text s rhs
    refine (writeTokens_cons_error ?_).symm
    rw [writeToken_of_entered hk, if_neg hout, hinside, ← ih hlength, hw]
  | @enters active s s' k ks t rhs inside rest trails trails' hk hout hless _ hw _ ih ihrest =>
    obtain ⟨less, hlength, hinside⟩ := r.inside_eq hroom hless k.text s rhs
    have hfirst : r.writeToken active (r.inside active room) s k = .ok (t, s') := by
      rw [writeToken_of_entered hk, if_neg hout, hinside, ← ih hlength, hw]
    rw [writeTokens_cons_ok hfirst, ihrest hroom]

end Unfolds

/-- Writing goes through one token after the other. It ends if it does so in every function that
it goes into. -/
theorem exists_unfolds_of_inside {room : Nat} (hroom : active.length + room = depthLimit)
    (hinside : ∀ name s rhs, active.length < depthLimit → ∃ trails,
      r.Unfolds (active ++ [name]) s (tokens r.lexicon r.functionNames rhs)
        (r.inside active room name s rhs) trails) :
    ∃ trails, r.Unfolds active s ks (r.writeTokens active (r.inside active room) s ks) trails := by
  induction ks generalizing s with
  | nil => exact ⟨[], .nil⟩
  | cons k ks ih =>
    cases hk : r.entered? s k with
    | none =>
      -- Nothing is gone into here, so it does not matter what would be written inside.
      have hkept : r.writeToken active (r.inside active room) s k =
          r.around s k (.error .tooDeep) := (writeToken_of_kept hk _).1
      cases hw : r.around s k (.error .tooDeep) with
      | error e =>
        rw [writeTokens_cons_error (hkept.trans hw)]
        exact ⟨[], .breaks hk hw⟩
      | ok p =>
        obtain ⟨trails, hrest⟩ := ih (s := p.2)
        rw [writeTokens_cons_ok (hkept.trans hw)]
        exact ⟨trails, .keeps hk hw hrest⟩
    | some rhs =>
      have hfirst : r.writeToken active (r.inside active room) s k =
          if k.text ∈ active then .error (.circular (active ++ [k.text]))
          else r.around s k (r.inside active room k.text s rhs) := writeToken_of_entered hk
      by_cases hin : k.text ∈ active
      · rw [if_pos hin] at hfirst
        rw [writeTokens_cons_error hfirst]
        exact ⟨[], .circles hk hin⟩
      rw [if_neg hin] at hfirst
      by_cases hless : active.length < depthLimit
      · obtain ⟨trails, hbody⟩ := hinside k.text s rhs hless
        cases hw : r.around s k (r.inside active room k.text s rhs) with
        | error e =>
          rw [writeTokens_cons_error (hfirst.trans hw)]
          exact ⟨_, .fails hk hin hless hbody hw⟩
        | ok p =>
          obtain ⟨trails', hrest⟩ := ih (s := p.2)
          rw [writeTokens_cons_ok (hfirst.trans hw)]
          exact ⟨_, .enters hk hin hless hbody hw hrest⟩
      · obtain rfl : room = 0 := by omega
        rw [writeTokens_cons_error (hfirst.trans (around_error hk))]
        exact ⟨[], .sinks hk hin (by omega)⟩

/-- Each function that writing goes into leaves room for one less, so writing ends. -/
theorem exists_unfolds {room : Nat} (hroom : active.length + room = depthLimit) :
    ∃ trails, r.Unfolds active s ks (r.writeTokens active (r.inside active room) s ks) trails := by
  induction room generalizing active s ks with
  | zero => exact exists_unfolds_of_inside hroom fun _ _ _ hless => absurd hless (by omega)
  | succ room ih =>
    refine exists_unfolds_of_inside hroom fun name s rhs _ => ?_
    rw [inside, write_eq]
    apply ih
    rw [List.length_append, List.length_singleton]
    omega

/-! ### Writing leads to an end -/

/-- All routines are made of functions from which every chain of references ends. -/
def Made (r : Repertoire) (s : Bindings) : Prop :=
  ∀ name, (s.routine? (routineId name)).isSome = true → r.Grounded name

/-- A token that is written leads to a grounded function only: to one that has a routine, or to one
whose right-hand side was written just then. -/
theorem grounded_of_writeToken
    (hbody : ∀ name s rhs u s', r.Made s → body name s rhs = .ok (u, s') →
      r.Made s' ∧ ∀ g, r.Mentions rhs g → r.Grounded g)
    (hs : r.Made s) (hw : r.writeToken active body s k = .ok (u, s')) :
    r.Made s' ∧ ((r.target? k).isSome = true → r.Grounded k.text) := by
  cases hk : r.entered? s k with
  | none =>
    have hkept : r.writeToken active body s k = r.around s k (.error .tooDeep) ∧ _ :=
      writeToken_of_kept hk _
    have hsame := hkept.2 u s' (hkept.1.symm.trans hw)
    -- A function that is not gone into although it is called has its routine already.
    refine ⟨fun name hname => hs name ?_, fun htarget => hs k.text ?_⟩
    · simpa [Setting.routine?, hsame] using hname
    · by_contra hnot
      simp [entered?, hnot, Option.isSome_iff_ne_none.mp htarget] at hk
  | some rhs =>
    rw [writeToken_of_entered hk] at hw
    split at hw
    · cases hw
    obtain ⟨t, mid, hinside, hroutines⟩ := ok_of_around hk hw
    obtain ⟨hmid, hmentions⟩ := hbody _ _ _ _ _ hs hinside
    have hground : r.Grounded k.text := by
      refine .intro _ fun g hg => ?_
      obtain ⟨formals, rhs', hfunction, hg⟩ := hg
      have hrhs : rhs' = rhs := by
        rcases entered?_cases hk with ⟨-, -, hfunction'⟩ | ⟨-, -, formals', hfunction'⟩ <;>
          simp_all
      exact hmentions g (hrhs ▸ hg)
    -- The routines made on the way belong to `mid`; only that of the function itself is new.
    refine ⟨fun name hname => ?_, fun _ => hground⟩
    rcases hroutines _ hname with hold | hid
    · exact hmid name hold
    · exact routineId_inj.mp hid ▸ hground

theorem grounded_of_writeTokens
    (hbody : ∀ name s rhs u s', r.Made s → body name s rhs = .ok (u, s') →
      r.Made s' ∧ ∀ g, r.Mentions rhs g → r.Grounded g)
    (hs : r.Made s) (hw : r.writeTokens active body s ks = .ok (u, s')) :
    r.Made s' ∧ ∀ k ∈ ks, (r.target? k).isSome = true → r.Grounded k.text := by
  obtain ⟨hmade, us, hus, -⟩ := writeTokens_eq_ok (I := r.Made)
    (W := fun k _ => ((r.target? k).isSome = true → r.Grounded k.text) ∧ True)
    (fun k _ s u s' hs hw => by simpa using grounded_of_writeToken hbody hs hw) hs hw
  exact ⟨hmade, ((List.forall₂_and_left ks us).mp hus).1⟩

/-- What is written out mentions only functions from which every chain of references ends. -/
theorem grounded_of_write {room : Nat} (hs : r.Made s)
    (hw : r.write room active s formula = .ok (u, s')) :
    r.Made s' ∧ ∀ g, r.Mentions formula g → r.Grounded g := by
  have hmentions {s' : Bindings} {formula : Text} (h : r.Made s' ∧
      ∀ k ∈ tokens r.lexicon r.functionNames formula,
        (r.target? k).isSome = true → r.Grounded k.text) :
      r.Made s' ∧ ∀ g, r.Mentions formula g → r.Grounded g :=
    ⟨h.1, fun _ ⟨k, hk, hname, htarget⟩ => hname ▸ h.2 k hk htarget⟩
  induction room generalizing active s formula u s' with
  | zero => exact hmentions (grounded_of_writeTokens (fun _ _ _ _ _ _ hw => by simp at hw) hs hw)
  | succ room ih =>
    exact hmentions (grounded_of_writeTokens (fun _ _ _ _ _ hs hw => ih hs hw) hs hw)

theorem not_cyclic_of_write {room : Nat} (hs : r.Made s)
    (hw : r.write room active s formula = .ok (u, s')) (hf : r.Reaches formula f) :
    ¬ TransGen r.Refers f f := by
  obtain ⟨g, hg, hpath⟩ := hf
  exact (((grounded_of_write hs hw).2 g hg).reached hpath).not_cyclic

theorem made_empty : r.Made .empty := fun name hname => by
  simp [Setting.routine?, Setting.empty] at hname

/-- Writing a formula out ends for all functions, however they mention each other. The functions
under way are distinct, with no more of them than the limit, and what is written is what the bounded
writing writes. A formula that is written out, or has a value, leads to no function that leads to
itself. -/
theorem unfolding_ends (r : Repertoire) (formula : Text) :
    (∃ written trails, r.Unfolds [] .empty (tokens r.lexicon r.functionNames formula)
      written trails) ∧
    (∀ written trails, r.Unfolds [] .empty (tokens r.lexicon r.functionNames formula)
      written trails → written = r.write depthLimit [] .empty formula ∧
        ∀ active ∈ trails, active.Nodup ∧ active.length ≤ depthLimit) ∧
    (∀ t s, r.write depthLimit [] .empty formula = .ok (t, s) →
      ∀ f, r.Reaches formula f → ¬ TransGen r.Refers f f) ∧
    ∀ e, r.read formula = .ok e → ∀ f, r.Reaches formula f → ¬ TransGen r.Refers f f := by
  have hroom : ([] : List Name).length + depthLimit = depthLimit := Nat.zero_add _
  refine ⟨⟨_, exists_unfolds hroom⟩, fun written trails h => ⟨?_, h.bounded List.nodup_nil⟩,
    fun t s hw f hf => not_cyclic_of_write made_empty hw hf, fun e hread f hf => ?_⟩
  · rw [h.eq_writeTokens hroom, write_eq]
  · obtain ⟨⟨t, s'⟩, hw, -⟩ := ok_of_bind hread
    exact not_cyclic_of_write made_empty hw hf

end Formulary.Repertoire
