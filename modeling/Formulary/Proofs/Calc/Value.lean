import Formulary.Calc.Value
import Formulary.Proofs.Binding.Steps
import Formulary.Proofs.Calc.Over.Substitution
import Formulary.Proofs.Calc.Term

/-! # What stands in a value

The symbols of a term's value are names of the term, or open in a routine: calling a
routine leaves none of its formals behind, and no operator brings in a symbol.
-/

namespace Formulary

open Formulary.Expr (Over)

variable {S T : Text → Prop} {v w : Value} {vs : List Value} {e a b : Expr} {es : List Expr}
  {s : Setting Routine} {t : Term} {ts : List Term} {n : Text} {α β : Type}

namespace Value

/-- Every symbol of the value belongs to the class. -/
def IsOver (S : Text → Prop) : Value → Prop
  | .expr e | .formal _ e => Over S e
  | .relation _ a b => Over S a ∧ Over S b
  | .truth _ | .flag _ | .tuple | .other => True

@[simp] theorem isOver_expr : IsOver S (.expr e) ↔ Over S e := Iff.rfl

@[simp] theorem isOver_formal {f : Fault} : IsOver S (.formal f e) ↔ Over S e := Iff.rfl

@[simp] theorem isOver_relation {c : Comparison} :
    IsOver S (.relation c a b) ↔ Over S a ∧ Over S b := Iff.rfl

@[simp] theorem isOver_truth {x : Bool} : IsOver S (.truth x) := trivial

@[simp] theorem isOver_flag {x : Bool} : IsOver S (.flag x) := trivial

@[simp] theorem isOver_tuple : IsOver S .tuple := trivial

@[simp] theorem isOver_other : IsOver S .other := trivial

theorem isOver_iff : IsOver S v ↔ ∀ id ∈ v.symbols, S id := by
  cases v with
  | expr e | formal f e => exact Expr.over_iff
  | relation c a b =>
    exact (and_congr Expr.over_iff Expr.over_iff).trans List.forall_mem_append.symm
  | _ => simp [symbols]

/-- The outcome is as `P` says, or a fault. -/
def Yields (P : α → Prop) : Except Fault α → Prop
  | .ok x => P x
  | .error _ => True

theorem Yields.bind {P : α → Prop} {Q : β → Prop} {x : Except Fault α} {f : α → Except Fault β}
    (hx : Yields P x) (hf : ∀ y, P y → Yields Q (f y)) : Yields Q (x >>= f) := by
  cases x with
  | error e => trivial
  | ok y => exact hf y hx

theorem yields_true (x : Except Fault α) : Yields (fun _ => True) x := by
  cases x <;> trivial

/-- The symbols of the value, if there is one, belong to the class. -/
abbrev OverResult (S : Text → Prop) (r : Result) : Prop := Yields (IsOver S) r

@[simp] theorem overResult_ok : OverResult S (.ok v) ↔ IsOver S v := Iff.rfl

@[simp] theorem overResult_error {f : Fault} : OverResult S (.error f) := trivial

theorem overResult_ofExpr (h : Over S e) : OverResult S (ofExpr e) := by
  unfold ofExpr
  split
  · trivial
  · exact h

/-! ### Operators -/

theorem overResult_relate {c : Comparison} (hv : IsOver S v) (hw : IsOver S w) :
    OverResult S (relate c v w) := by
  unfold relate
  split
  · simp
  · simp
  · split
    · exact ⟨hv, hw⟩
    · split <;> simp
  · simp

theorem over_operands (h : IsOver S v) : Over S (operands v) := by
  cases v with
  | expr e | formal f e => exact h
  | relation c a b => exact Expr.over_pair.mpr h
  | _ => exact Expr.over_zero

theorem overResult_combine {op : BinaryOp} (hv : IsOver S v) (hw : IsOver S w) :
    OverResult S (combine op v w) := by
  unfold combine
  split
  · simp
  · split
    · split
      · simp
      · exact hv
    · exact Expr.over_pair.mpr ⟨over_operands hv, over_operands hw⟩

theorem overResult_binaryExpr {op : BinaryOp} (ha : Over S a) (hb : Over S b) :
    OverResult S (binaryExpr op a b) := by
  unfold binaryExpr
  split
  case h_8 => trivial
  all_goals exact overResult_ofExpr (by simp [ha, hb])

theorem overResult_shiftUp {m : Int} {k : Nat} : OverResult S (shiftUp m k) := by
  unfold shiftUp
  split
  · simp
  · split <;> simp

theorem overResult_binaryInt? {op : BinaryOp} {m n : Int} {r : Result}
    (h : binaryInt? op m n = some r) : OverResult S r := by
  unfold binaryInt? at h
  split at h
  case h_4 | h_5 =>
    obtain rfl := Option.some.inj h
    split
    · simp
    · first | exact overResult_shiftUp | exact overResult_ok.mpr Expr.over_ofInt
  case h_6 => simp at h
  all_goals
    obtain rfl := Option.some.inj h
    exact overResult_ok.mpr Expr.over_ofInt

theorem overResult_binarySequence {op : BinaryOp} (hv : IsOver S v) (hw : IsOver S w) :
    OverResult S (binarySequence op v w) := by
  unfold binarySequence
  split
  · simp
  · simp
  · split
    · exact hw
    · split
      · exact hv
      · simp
  · simp

theorem overResult_binary {op : BinaryOp} (hv : IsOver S v) (hw : IsOver S w) :
    OverResult S (binary op v w) := by
  unfold binary
  split
  · split
    · rename_i x y m n _ _
      cases hint : binaryInt? op m n with
      | none => exact overResult_binaryExpr hv hw
      | some r => exact overResult_binaryInt? hint
    · split
      · exact overResult_combine hv hw
      · exact overResult_binaryExpr hv hw
  · split
    · exact overResult_combine hv hw
    · exact overResult_binarySequence hv hw

theorem overResult_unary {op : UnaryOp} (h : IsOver S v) : OverResult S (unary op v) := by
  unfold unary
  split
  · exact h
  · exact overResult_ofExpr (Expr.over_negate h)
  · split
    · exact overResult_ok.mpr Expr.over_ofInt
    · split
      · exact over_operands h
      · simp
  · simp

/-! ### Names -/

theorem over_namedConstant? (h : namedConstant? n = some e) : Over S e := by
  unfold namedConstant? at h
  split at h
  · obtain rfl := Option.some.inj h
    exact Expr.over_productPair Expr.over_half
      (Expr.over_sumPair Expr.over_one (Expr.over_sqrt Expr.over_ofInt))
  · obtain ⟨p, hp, rfl⟩ := Option.map_eq_some_iff.mp h
    have hall : ∀ p ∈ namedConstants, Over S p.2 := by simp [namedConstants]
    exact hall p (List.mem_of_find?_eq_some hp)

/-! ### Calls -/

/-- Arguments take the place of all formals. -/
theorem carries_assignments {formals : List Text} (hlength : es.length = formals.length)
    (hes : ∀ e ∈ es, Over S e) :
    Expr.Carries (assignments formals es) (fun id => id ∉ formals → S id) S := by
  intro id hid
  cases hfind : (formals.zip es).find? fun p => p.1 == id with
  | some p =>
    have hp : p.2 ∈ es := (List.of_mem_zip (List.mem_of_find?_eq_some hfind)).2
    simpa [assignments, hfind] using hes p.2 hp
  | none =>
    have hnot : id ∉ formals := by
      intro hmem
      rw [← List.map_fst_zip (show formals.length ≤ es.length from hlength.ge)] at hmem
      obtain ⟨p, hp, rfl⟩ := List.mem_map.mp hmem
      simpa using List.find?_eq_none.mp hfind p hp
    simpa [assignments, hfind] using hid hnot

end Value

/-- But for its formals, the symbols of a routine belong to the class. -/
def Routine.IsOver (S : Text → Prop) (r : Routine) : Prop :=
  r.body.IsOver fun id => id ∉ r.formals → S id

/-- But for their formals, the symbols of the routines at hand belong to the class. -/
def Setting.RoutinesOver (S : Text → Prop) (s : Setting Routine) : Prop :=
  ∀ r ∈ s.routines, r.2.IsOver S

theorem Setting.RoutinesOver.routine? {id : Text} {r : Routine}
    (h : s.RoutinesOver S) (hr : s.routine? id = some r) : r.IsOver S := by
  obtain ⟨p, hp, rfl⟩ := Option.map_eq_some_iff.mp hr
  exact h p (List.mem_of_find?_eq_some hp)

namespace Value

theorem overResult_callRoutine {r : Routine} (hr : r.IsOver S) (hes : ∀ e ∈ es, Over S e) :
    OverResult S (callRoutine r es) := by
  unfold callRoutine
  split
  · simp
  · rename_i hlength
    have hσ := carries_assignments (S := S) (Decidable.not_not.mp hlength) hes
    unfold Routine.IsOver at hr
    dsimp only
    split
    · rename_i e hbody
      rw [hbody] at hr
      exact overResult_ofExpr (Expr.over_replace hσ hr)
    · rename_i c a b hbody
      rw [hbody] at hr
      exact overResult_relate (Expr.over_replace hσ hr.1) (Expr.over_replace hσ hr.2)
    · rename_i f e hbody
      rw [hbody] at hr
      exact Expr.over_replace hσ hr
    · rename_i hexpr hrelation hformal
      refine overResult_ok.mpr ?_
      cases hbody : r.body with
      | expr e => exact absurd hbody (hexpr e)
      | relation c a b => exact absurd hbody (hrelation c a b)
      | formal f e => exact absurd hbody (hformal f e)
      | _ => simp

theorem over_foldr_joinPair (hes : ∀ e ∈ es, Over S e) :
    Over S (es.foldr Expr.joinPair .zero) := by
  induction es with
  | nil => exact Expr.over_zero
  | cons e es ih =>
    rw [List.forall_mem_cons] at hes
    exact Expr.over_joinPair hes.1 (ih hes.2)

theorem overResult_callName (hs : s.RoutinesOver S) (hes : ∀ e ∈ es, Over S e) :
    OverResult S (callName s n es) := by
  unfold callName
  split
  · exact overResult_callRoutine (hs.routine? ‹_›) hes
  · split
    · split
      · rename_i hcall
        exact overResult_ofExpr ((Expr.over_call? hes).of_eq_some hcall)
      · simp
    · split
      · simp
      · exact overResult_ofExpr (Expr.over_applyUnknown (over_foldr_joinPair hes))

theorem over_exprs? (hvs : ∀ v ∈ vs, IsOver S v) (h : exprs? vs = some es) :
    ∀ e ∈ es, Over S e := by
  induction vs generalizing es with
  | nil => simp_all [exprs?]
  | cons v vs ih =>
    rw [List.forall_mem_cons] at hvs
    simp only [exprs?, List.mapM_cons] at h
    obtain ⟨e, he, h⟩ := Option.bind_eq_some_iff.mp h
    obtain ⟨more, hmore, h⟩ := Option.bind_eq_some_iff.mp h
    obtain rfl := Option.some.inj h
    refine List.forall_mem_cons.mpr ⟨?_, ih hvs.2 hmore⟩
    cases v with
    | expr e' =>
      obtain rfl := Option.some.inj he
      exact hvs.1
    | _ => simp [expr?] at he

theorem overResult_call {f : Term} (hs : s.RoutinesOver S) (hvs : ∀ v ∈ vs, IsOver S v) :
    OverResult S (call s f vs) := by
  unfold call
  split
  · exact overResult_callName hs (over_exprs? hvs ‹_›)
  · simp

/-! ### Terms -/

/-- Where the names of a term are defined is left open: what they stand for belongs to the class. -/
def NamesOver (S : Text → Prop) (ns : List Text) : Prop := ∀ n ∈ ns, IsOver S (ofName n)

mutual

/-- The symbols of the value of a term are those that its names stand for. -/
theorem overResult_ofTerm (hs : s.RoutinesOver S) :
    ∀ t : Term, NamesOver S t.names → OverResult S (ofTerm s t)
  | .name n, h => overResult_ok.mpr (h n (by simp [Term.names]))
  | .whole _, _ => overResult_ok.mpr Expr.over_ofInt
  | .decimal .., _ => overResult_ok.mpr Expr.over_num
  | .quoted, _ => overResult_ok.mpr isOver_other
  | .tuple ts, h => (over_ofTerms hs ts h).bind fun _ _ => overResult_ok.mpr isOver_tuple
  | .display ts, h => (over_ofTerms hs ts h).bind fun _ _ => overResult_ok.mpr isOver_other
  -- The names of the function that is called do not matter to the value.
  | .call f args, h => (yields_true _).bind fun _ _ =>
    (over_ofTerms hs args h).bind fun _ hvs => overResult_call hs hvs
  | .attribute t, _ => (yields_true _).bind fun _ _ => overResult_error
  | .factorial double t, h => (overResult_ofTerm hs t h).bind fun v hv => by
    split
    · exact overResult_ofExpr (Expr.over_ite (by simp_all) (by simp_all))
    · simp
  | .unary op t, h => (overResult_ofTerm hs t h).bind fun _ hv => overResult_unary hv
  | .binary op a b, h => by
    rw [Term.names, NamesOver, List.forall_mem_append] at h
    exact (overResult_ofTerm hs a h.1).bind fun _ hv =>
      (overResult_ofTerm hs b h.2).bind fun _ hw => overResult_binary hv hw
  | .compare ops [], _ => overResult_error
  | .compare ops (t :: ts), h => by
    rw [Term.names, Term.namesOf, NamesOver, List.forall_mem_append] at h
    exact (overResult_ofTerm hs t h.1).bind fun _ hv => overResult_ofLinks hs hv ops ts h.2

theorem over_ofTerms (hs : s.RoutinesOver S) :
    ∀ ts : List Term, NamesOver S (Term.namesOf ts) →
      Yields (fun vs => ∀ v ∈ vs, IsOver S v) (ofTerms s ts)
  | [], _ => List.forall_mem_nil _
  | t :: ts, h => by
    rw [Term.namesOf, NamesOver, List.forall_mem_append] at h
    exact (overResult_ofTerm hs t h.1).bind fun _ hv =>
      (over_ofTerms hs ts h.2).bind fun _ hvs => List.forall_mem_cons.mpr ⟨hv, hvs⟩

theorem overResult_ofLinks (hs : s.RoutinesOver S) {v : Value} (hv : IsOver S v) :
    ∀ (cs : List Comparison) (ts : List Term), NamesOver S (Term.namesOf ts) →
      OverResult S (ofLinks s v cs ts)
  | [], _, _ => by simp [ofLinks]
  | _ :: _, [], _ => by simp [ofLinks]
  | c :: cs, t :: ts, h => by
    rw [Term.namesOf, NamesOver, List.forall_mem_append] at h
    have hfirst := overResult_ofTerm hs t h.1
    rw [ofLinks.eq_def]
    split
    · rename_i hcs hts
      obtain ⟨rfl, rfl⟩ := List.cons.inj hcs
      obtain ⟨rfl, rfl⟩ := List.cons.inj hts
      exact hfirst.bind fun _ hw => overResult_relate hv hw
    · rename_i hcs hts
      obtain ⟨rfl, rfl⟩ := List.cons.inj hcs
      obtain ⟨rfl, rfl⟩ := List.cons.inj hts
      refine hfirst.bind fun _ hw => (overResult_relate hv hw).bind fun link hlink => ?_
      refine (yields_true _).bind fun more _ => ?_
      split
      · exact overResult_ofLinks hs hw cs ts h.2
      · exact hlink
    · simp

end

end Value

end Formulary
