import Formulary.Binding.Plan

/-! # Steps that may fail

A computation in steps gives a result only if every step does, and its failure is
that of one of its steps. What is wrong with a text is found when it is read, and what
stands against it in the names in use when it is planned; a name that could not be
created is reported by neither, for planning creates nothing.
-/

namespace Formulary

variable {ε α β : Type} {x : Except ε α} {f : α → Except ε β}

theorem ok_of_bind {b : β} (h : x >>= f = .ok b) : ∃ a, x = .ok a ∧ f a = .ok b := by
  cases x with
  | error e => simp [Bind.bind, Except.bind] at h
  | ok a => exact ⟨a, rfl, h⟩

theorem error_of_bind {e : ε} (h : x >>= f = .error e) :
    x = .error e ∨ ∃ a, x = .ok a ∧ f a = .error e := by
  cases x with
  | error e' => exact Or.inl (by simpa [Bind.bind, Except.bind] using h)
  | ok a => exact Or.inr ⟨a, rfl, h⟩

theorem ok_of_map {g : α → β} {b : β} (h : x.map g = .ok b) : ∃ a, x = .ok a ∧ g a = b := by
  cases x with
  | error e => cases h
  | ok a => exact ⟨a, rfl, Except.ok.inj h⟩

theorem ok_of_mapError {ε' : Type} {g : ε → ε'} {a : α} (h : x.mapError g = .ok a) :
    x = .ok a := by
  cases x with
  | error => cases h
  | ok => exact congrArg Except.ok (Except.ok.inj h)

theorem error_of_mapError {ε' : Type} {g : ε → ε'} {e : ε'} (h : x.mapError g = .error e) :
    ∃ e', x = .error e' ∧ g e' = e := by
  cases x with
  | error e' => exact ⟨e', rfl, Except.error.inj h⟩
  | ok a => cases h

theorem error_of_map {g : α → β} {e : ε} (h : x.map g = .error e) : x = .error e := by
  cases x with
  | error e' => exact congrArg Except.error (Except.error.inj h)
  | ok a => cases h

namespace BindError

/-- The text is at fault, whatever is in use. -/
def isReading : BindError → Bool
  | .reserved .. | .taken .. | .wrongArguments _ | .selfReference _ => false
  | .unresolved .. | .cycle _ => false
  | _ => true

/-- The definition is at fault, and nothing was created for it. -/
def isPlanning : BindError → Bool
  | .unresolved .. | .cycle _ => false
  | _ => true

theorem isPlanning_of_isReading {e : BindError} (h : e.isReading = true) : e.isPlanning = true := by
  cases e with
  | unresolved => exact h
  | cycle => exact h
  | _ => rfl

end BindError

/-- Every failure of the computation is of this sort. -/
def Fails (sort : BindError → Bool) (x : Except BindError α) : Prop :=
  ∀ e, x = .error e → sort e = true

namespace Fails

variable {sort : BindError → Bool}

theorem ok {a : α} : Fails sort (.ok a : Except BindError α) := by
  simp [Fails]

theorem error {e : BindError} (h : sort e = true) :
    Fails sort (.error e : Except BindError α) := by
  rintro e' he
  obtain rfl := Except.error.inj he
  exact h

theorem bind {x : Except BindError α} {f : α → Except BindError β} (hx : Fails sort x)
    (hf : ∀ a, Fails sort (f a)) : Fails sort (x >>= f) := by
  intro e he
  rcases error_of_bind he with h | ⟨a, -, h⟩
  · exact hx e h
  · exact hf a e h

theorem planning {x : Except BindError α} (h : Fails BindError.isReading x) :
    Fails BindError.isPlanning x :=
  fun e he => BindError.isPlanning_of_isReading (h e he)

end Fails

open Fails (ok error)

/-! ### Heads -/

namespace Head

variable {lex : Lexicon} {source : Text} {role : NameRole}

theorem fails_tokensFrom (i : Nat) (t : Text) : Fails BindError.isReading (tokensFrom i t) := by
  fun_induction tokensFrom i t
  case case1 => exact ok
  case case2 ih => exact ih
  case case3 => exact error rfl
  case case4 => exact error rfl
  case case5 ih => exact ih.bind fun _ => ok
  case case6 => exact error rfl
  case case7 ih => exact ih.bind fun _ => ok

theorem fails_expect {kind : TokenKind} {what : String} (ts : List Token) :
    Fails BindError.isReading (expect source kind what ts) := by
  unfold expect
  split
  · exact error rfl
  · split
    · exact ok
    · exact error rfl

theorem fails_parseName (ts : List Token) :
    Fails BindError.isReading (parseName lex source role ts) := by
  apply (fails_expect ts).bind
  intro first
  dsimp only
  split
  · exact error rfl
  · split
    · exact ok
    · exact error rfl
    · exact error rfl

theorem fails_parseNames (fuel : Nat) (ts : List Token) :
    Fails BindError.isReading (parseNames lex source fuel ts) := by
  induction fuel generalizing ts with
  | zero => exact ok
  | succ fuel ih =>
    unfold parseNames
    split
    case' h_1 =>
      dsimp only
      split
      exact error rfl
    -- Unless the list starts with a comma or ends, a name is read, and others after a comma.
    all_goals
      apply (fails_parseName _).bind
      rintro ⟨s, _ | ⟨t, rest⟩⟩
      · exact ok
      · change Fails BindError.isReading (ite _ _ _)
        split
        · exact (ih _).bind fun _ => ok
        · exact ok

theorem fails_expectEnd (ts : List Token) : Fails BindError.isReading (expectEnd source ts) := by
  cases ts with
  | nil => exact ok
  | cons t ts => exact error rfl

theorem fails_checkFormals {function : Name} (seen formals : List Name) :
    Fails BindError.isReading (checkFormals function seen formals) := by
  induction formals generalizing seen with
  | nil => exact ok
  | cons f formals ih =>
    unfold checkFormals
    split
    · exact error rfl
    · split
      · exact error rfl
      · exact ih _

theorem fails_parseFormals (ts : List Token) :
    Fails BindError.isReading (parseFormals lex source ts) := by
  unfold parseFormals
  split
  · split
    · exact ok
    · exact fails_parseNames _ _
  · exact fails_parseNames _ _

theorem fails_parseTokens (ts : List Token) :
    Fails BindError.isReading (parseTokens lex source ts) := by
  apply (fails_parseName ts).bind
  intro p
  dsimp only
  split
  · exact ok
  · split
    · apply (fails_parseFormals _).bind
      intro q
      apply (fails_expect _).bind
      intro q
      apply (fails_expectEnd _).bind
      intro _
      exact (fails_checkFormals _ _).bind fun _ => ok
    · exact (fails_expectEnd _).bind fun _ => ok

theorem fails_parse : Fails BindError.isReading (parse lex source) := by
  apply (fails_tokensFrom 0 source).bind
  intro ts
  split
  · exact ok
  · exact fails_parseTokens ts

end Head

/-! ### Plans -/

theorem fails_require {side : String} {t : Text} :
    Fails BindError.isReading (Bracket.require side t) := by
  unfold Bracket.require
  split
  · exact ok
  · exact error rfl

namespace Plan

variable {r : Reading} {live : LiveNames} {arities : Formula.Arities}

theorem fails_sides {raw : Text} : Fails BindError.isReading (sides r raw) := by
  unfold sides Assignment.split
  dsimp only
  split
  · exact error rfl
  · split
    · exact error rfl
    · split
      · exact error rfl
      · split
        · exact error rfl
        · split
          · exact error rfl
          · exact ok

theorem fails_writtenHead {left : Text} : Fails BindError.isReading (writtenHead r left) :=
  fails_require.bind fun _ => Head.fails_parse

/-- The head and the right-hand side of a definition, before anything is looked up. -/
def read (r : Reading) (raw : Text) : Except BindError (Head × Text) := do
  let (left, right) ← sides r raw
  let written ← writtenHead r left
  if right.isEmpty then .error (.emptyExpression written.name)
  Bracket.require "right-hand side" right
  return (settle written right, right)

theorem plan_eq_read {raw : Text} : plan r live arities raw =
    read r raw >>= fun q => assemble r live arities q.1 q.2 := by
  unfold plan read
  cases sides r raw with
  | error e => rfl
  | ok q =>
    obtain ⟨left, right⟩ := q
    change (writtenHead r left >>= _) = (writtenHead r left >>= _) >>= _
    cases writtenHead r left with
    | error e => rfl
    | ok written =>
      change (ite (right.isEmpty = true) _ _) = (ite (right.isEmpty = true) _ _) >>= _
      split
      · rfl
      · cases Bracket.require "right-hand side" right <;> rfl

theorem fails_read {raw : Text} : Fails BindError.isReading (read r raw) := by
  apply fails_sides.bind
  intro p
  apply fails_writtenHead.bind
  intro written
  have hrest : Fails BindError.isReading (do
      Bracket.require "right-hand side" p.2
      return (settle written p.2, p.2)) :=
    fails_require.bind fun _ => ok
  dsimp only
  split
  · exact (error rfl).bind fun _ => hrest
  · exact hrest

theorem fails_checkReserved {head : Head} : Fails BindError.isPlanning (checkReserved r head) := by
  unfold checkReserved
  split
  case h_1 e he =>
    obtain ⟨name, -, hname⟩ := List.exists_of_findSome?_eq_some he
    unfold Naming.reservation? at hname
    split at hname
    · obtain rfl := Option.some.inj hname
      exact error rfl
    · simp at hname
  case h_2 => exact ok

theorem fails_change {head : Head} : Fails BindError.isPlanning (change r live head) := by
  unfold change
  split
  · exact ok
  · split
    · exact ok
    · exact ok
    · exact error rfl

theorem fails_checkCalls {head : Head} {calls : List Formula.Call} :
    Fails BindError.isPlanning (checkCalls head calls) := by
  unfold checkCalls
  split
  · exact ok
  · exact error rfl

theorem fails_checkSelf {functions dependencies : List Name} {head : Head} {rhs : Text} :
    Fails BindError.isPlanning (checkSelf r functions head rhs dependencies) := by
  unfold checkSelf
  split
  · exact error rfl
  · exact ok

theorem fails_assemble {head : Head} {right : Text} :
    Fails BindError.isPlanning (assemble r live arities head right) := by
  apply fails_checkReserved.bind
  intro _
  apply fails_change.bind
  intro transition
  apply fails_checkCalls.bind
  intro _
  exact fails_checkSelf.bind fun _ => ok

end Plan

/-- Planning fails for other reasons than a name that could not be created. -/
theorem fails_plan {r : Reading} {live : LiveNames} {arities : Formula.Arities}
    {raw : Text} : Fails BindError.isPlanning (plan r live arities raw) := by
  rw [Plan.plan_eq_read]
  exact Plan.fails_read.planning.bind fun _ => Plan.fails_assemble

end Formulary
