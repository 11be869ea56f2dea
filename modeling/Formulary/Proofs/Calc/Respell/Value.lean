import Formulary.Calc.Arithmetic
import Formulary.Proofs.Calc.Rename.Term
import Formulary.Proofs.Calc.Respell.Remainder

/-! # Respelled values

Where what is put in for symbols is spelled as the symbols are, substitution and estimates
give what they give otherwise. So the value of a term under other names is the respelled
value of the term, if its names stand for the same in both settings.
-/

namespace Formulary

namespace Expr

variable {ρ τ : Respelling} {a b e : Expr} {es : List Expr} {σ σ' : Text → Option Expr} {id : Text}
  {place : Place}

/-! ### Substitution -/

theorem respell_joinPair (a b : Expr) :
    respell ρ (joinPair a b) = joinPair (respell ρ a) (respell ρ b) := by
  have hfault := firstFault?_respell (ρ := ρ) [a, b]
  simp only [List.map_cons, List.map_nil] at hfault
  rw [joinPair, joinPair, hfault]
  split <;> rfl

theorem respell_applyUnknown (name : Text) (a : Expr) :
    respell ρ (applyUnknown name a) = applyUnknown name (respell ρ a) := by
  cases a <;> rfl

theorem respell_single (es : List Expr) : respell ρ (single es) = single (es.map (respell ρ)) := by
  simp [single]

/-- What a symbol becomes, respelled by `ρ`, is what the symbol as `τ` spells it becomes. Symbols
that stay are spelled alike by both. -/
def Follows (ρ τ : Respelling) (σ σ' : Text → Option Expr) (id : Text) : Prop :=
  σ' (τ.spell id) = (σ id).map (respell ρ) ∧ (σ id = none → ρ.spell id = τ.spell id)

theorem isAffected_respell (h : ∀ id ∈ symbols e, Follows ρ τ σ σ' id) :
    isAffected σ' (respell τ e) = isAffected σ e := by
  rw [isAffected, isAffected, symbols_respell, List.any_map, Bool.eq_iff_iff]
  simp only [List.any_eq_true, Function.comp_apply]
  refine exists_congr fun id => and_congr_right fun hid => ?_
  rw [(h id hid).1, Option.isSome_map]

theorem respell_eq_respell (h : ∀ id ∈ symbols e, ρ.spell id = τ.spell id) :
    respell ρ e = respell τ e := by
  induction e with
  | add a b iha ihb | mul a b iha ihb | pow a b iha ihb | fn2 g a b iha ihb | pair a b iha ihb =>
    obtain ⟨ha, hb⟩ := List.forall_mem_append.mp h
    rw [respell, respell, iha ha, ihb hb]
  | fn g a ih | unknown name a ih => rw [respell, respell, ih h]
  | sym id => rw [respell, respell, h id List.mem_cons_self]
  | _ => rfl

theorem replaceMembers_respell (h : ∀ id ∈ symbols e, Follows ρ τ σ σ' id) :
    replaceMembers σ' place (respell τ e) = (replaceMembers σ place e).map (respell ρ) := by
  fun_induction replaceMembers σ place e with
  | case1 e place hσ =>
    have hnot : isAffected σ e = false := by simpa using hσ
    have hsame : respell ρ e = respell τ e := respell_eq_respell fun id hid =>
      (h id hid).2 (by simpa using List.any_eq_false.mp hnot id hid)
    unfold replaceMembers
    simp [isAffected_respell h, hnot, hsame]
  | case2 place id hσ =>
    obtain ⟨hid, hfixed⟩ := h id List.mem_cons_self
    rw [← isAffected_respell h] at hσ
    simp only [respell] at hσ
    simp only [replaceMembers, respell, hσ, hid]
    cases hs : σ id with
    | none => simp [respell, hfixed hs]
    | some e => rfl
  | case3 a b members hσ iha ihb =>
    obtain ⟨ha, hb⟩ := List.forall_mem_append.mp h
    rw [← isAffected_respell h] at hσ
    simp only [respell] at hσ
    simp [replaceMembers, respell, hσ, iha ha, ihb hb, members]
  | case4 place a b members hplace hσ iha ihb =>
    obtain ⟨ha, hb⟩ := List.forall_mem_append.mp h
    rw [← isAffected_respell h] at hσ
    simp only [respell] at hσ
    simp [replaceMembers, respell, hσ, hplace, iha ha, ihb hb, members]
  | case5 a b members hσ iha ihb =>
    obtain ⟨ha, hb⟩ := List.forall_mem_append.mp h
    rw [← isAffected_respell h] at hσ
    simp only [respell] at hσ
    simp [replaceMembers, respell, hσ, iha ha, ihb hb, members]
  | case6 place a b members hplace hσ iha ihb =>
    obtain ⟨ha, hb⟩ := List.forall_mem_append.mp h
    rw [← isAffected_respell h] at hσ
    simp only [respell] at hσ
    simp [replaceMembers, respell, hσ, hplace, iha ha, ihb hb, members]
  | case7 place a b hσ iha ihb | case9 place f a b hσ iha ihb | case10 place a b hσ iha ihb =>
    obtain ⟨ha, hb⟩ := List.forall_mem_append.mp h
    rw [← isAffected_respell h] at hσ
    simp only [respell] at hσ
    simp [replaceMembers, respell, hσ, iha ha, ihb hb, respell_single, respell_joinPair]
  | case8 place f a hσ iha | case11 place name a hσ iha =>
    rw [← isAffected_respell h] at hσ
    simp only [respell] at hσ
    simp [replaceMembers, respell, hσ, iha h, respell_single, respell_applyUnknown]
  | case12 place e hσ => cases e <;> simp_all [isAffected, symbols]

theorem replace_respell (h : ∀ id ∈ symbols e, Follows ρ τ σ σ' id) :
    replace σ' (respell τ e) = respell ρ (replace σ e) := by
  rw [replace, replace, replaceMembers_respell h, respell_single]

/-- Respelled, a symbol takes a number as it does otherwise. -/
theorem respell_put (id : Text) (s : Scalar) (e : Expr) :
    respell ρ (put id s e) = put (ρ.spell id) s (respell ρ e) := by
  refine (replace_respell fun k _ => ⟨?_, fun _ => rfl⟩).symm
  simp only [ρ.spell_inj]
  split <;> rfl

/-! ### Estimates -/

theorem isPlainComplex_respell (e : Expr) : isPlainComplex (respell ρ e) = isPlainComplex e := by
  grind [isPlainComplex.eq_def]

theorem argumentOf_respell (a : Expr) (x : Estimator) :
    argumentOf (respell ρ a) x = argumentOf a x := by
  cases a <;> rfl

theorem functionEstimate_respell (f : Fn) (a : Expr) (x : Estimator) :
    functionEstimate f (respell ρ a) x = functionEstimate f a x := by
  simp only [functionEstimate, argumentOf_respell]

theorem powerEstimate_respell (a b : Expr) (base x : Estimator) :
    powerEstimate (respell ρ a) (respell ρ b) base x = powerEstimate a b base x := by
  have hhalf : respell ρ b = half ↔ b = half := respell_eq_iff rfl
  simp only [powerEstimate, int?_respell, hhalf, respell_eq_const]

theorem estimators_respell (chain : Chain) (e : Expr) :
    estimators chain (respell ρ e) = estimators chain e := by
  induction e generalizing chain with
  | add a b iha ihb =>
    have hplain := isPlainComplex_respell (ρ := ρ) (.add a b)
    simp only [respell] at hplain
    simp only [estimators, respell, iha, ihb, hplain]
  | mul a b iha ihb => simp only [estimators, respell, iha, ihb, isNumber_respell, respell_eq_const]
  | pow a b iha ihb => simp only [estimators, respell, iha, ihb, powerEstimate_respell]
  | fn f a ih => simp only [estimators, respell, ih, functionEstimate_respell]
  | _ => rfl

theorem estimate?_respell (e : Expr) : estimate? (respell ρ e) = estimate? e := by
  simp only [estimate?, estimators_respell]

end Expr

namespace Value

open Formulary.Expr (Follows)

variable {ρ : Respelling} {a b e : Expr} {v w : Value} {s s' : Setting Routine} {f : Text → Text}

/-- The value with its symbols respelled. -/
def respell (ρ : Respelling) : Value → Value
  | .expr e => .expr (e.respell ρ)
  | .relation c a b => .relation c (a.respell ρ) (b.respell ρ)
  | .formal f e => .formal f (e.respell ρ)
  | v => v

theorem respell_injective : Function.Injective (respell ρ) := by
  intro v w h
  cases v <;> cases w <;> simp_all [respell]

@[simp] theorem respell_inj : respell ρ v = respell ρ w ↔ v = w := respell_injective.eq_iff

@[simp] theorem respell_refl (v : Value) : respell .refl v = v := by
  cases v <;> simp [respell]

/-- A result with its symbols respelled. -/
def respellResult (ρ : Respelling) : Result → Result := Except.map (respell ρ)

@[simp] theorem respellResult_ok : respellResult ρ (.ok v) = .ok (respell ρ v) := rfl

@[simp] theorem respellResult_error {f : Fault} : respellResult ρ (.error f) = .error f := rfl

theorem ofExpr_respell (e : Expr) : ofExpr (e.respell ρ) = respellResult ρ (ofExpr e) := by
  cases e <;> rfl

theorem exprs?_respell (vs : List Value) :
    exprs? (vs.map (respell ρ)) = (exprs? vs).map (List.map (Expr.respell ρ)) := by
  induction vs with
  | nil => rfl
  | cons v vs ih =>
    simp only [exprs?, List.map_cons, List.mapM_cons] at ih ⊢
    rw [ih]
    cases v <;> cases List.mapM expr? vs <;> rfl

theorem int?_respell (v : Value) : int? (respell ρ v) = int? v := by
  cases v <;> simp [respell, int?]

theorem symbols_respell (v : Value) : symbols (respell ρ v) = (symbols v).map ρ.spell := by
  cases v <;> simp [respell, symbols]

/-! ### Operators -/

theorem order?_respell (a b : Expr) : order? (a.respell ρ) (b.respell ρ) = order? a b := by
  have hsign : Expr.sign? (Expr.difference (a.respell ρ) (b.respell ρ)) =
      Expr.sign? (Expr.difference a b) := by
    rw [← Expr.respell_difference, Expr.sign?_respell]
  grind [order?.eq_def]

theorem relate_respell (c : Comparison) (v w : Value) :
    relate c (respell ρ v) (respell ρ w) = respellResult ρ (relate c v w) := by
  cases c with
  | equal =>
    simp only [relate, beq_eq_decide, respell_inj]
    rfl
  | notEqual =>
    simp only [relate, bne, beq_eq_decide, respell_inj]
    rfl
  | _ =>
    cases v with
    | expr a =>
      cases w with
      | expr b =>
        simp only [relate, respell, Expr.isConstant_respell, order?_respell]
        split
        · rfl
        · cases order? a b <;> rfl
      | _ => rfl
    | _ => cases w <;> rfl

theorem goesOn_respell (v : Value) : goesOn (respell ρ v) = goesOn v := by
  cases v <;> rfl

theorem isLogical_respell (v : Value) : isLogical (respell ρ v) = isLogical v := by
  cases v with
  | expr e => cases e <;> rfl
  | _ => rfl

theorem isSymbol_respell (v : Value) : isSymbol (respell ρ v) = isSymbol v := by
  cases v with
  | expr e => cases e <;> rfl
  | _ => rfl

theorem operands_respell (v : Value) : operands (respell ρ v) = (operands v).respell ρ := by
  cases v <;> rfl

theorem combine_respell (op : BinaryOp) (v w : Value) :
    combine op (respell ρ v) (respell ρ w) = respellResult ρ (combine op v w) := by
  simp only [combine, isLogical_respell, isSymbol_respell, operands_respell, respell_inj]
  split
  · rfl
  · split
    · split <;> rfl
    · rfl

theorem binaryExpr_respell (op : BinaryOp) (a b : Expr) :
    binaryExpr op (a.respell ρ) (b.respell ρ) = respellResult ρ (binaryExpr op a b) := by
  cases op <;> simp [binaryExpr, ← ofExpr_respell]

theorem binaryInt?_respell (op : BinaryOp) (m n : Int) :
    (binaryInt? op m n).map (respellResult ρ) = binaryInt? op m n := by
  have hshift (m : Int) (n : Nat) : respellResult ρ (shiftUp m n) = shiftUp m n := by
    unfold shiftUp
    split
    · rfl
    · split <;> rfl
  cases op with
  | shiftL =>
    simp only [binaryInt?, Option.map_some]
    split
    · rfl
    · rw [hshift]
  | shiftR =>
    simp only [binaryInt?, Option.map_some]
    split <;> rfl
  | _ => rfl

theorem binarySequence_respell (op : BinaryOp) (v w : Value) :
    binarySequence op (respell ρ v) (respell ρ w) = respellResult ρ (binarySequence op v w) := by
  have htuple (v : Value) : respell ρ v = .tuple ↔ v = .tuple := respell_injective.eq_iff' rfl
  have hother (v : Value) : respell ρ v = .other ↔ v = .other := respell_injective.eq_iff' rfl
  cases op with
  | add => cases v <;> cases w <;> rfl
  | mul =>
    simp only [binarySequence, int?_respell, htuple, hother]
    split_ifs <;> rfl
  | _ => rfl

theorem binary_respell (op : BinaryOp) (v w : Value) :
    binary op (respell ρ v) (respell ρ w) = respellResult ρ (binary op v w) := by
  have hcombine := combine_respell (ρ := ρ) op v w
  have hsequence := binarySequence_respell (ρ := ρ) op v w
  have hother :
      (if isLogicalOp op then combine op (respell ρ v) (respell ρ w) else binarySequence op
      (respell ρ v) (respell ρ w)) =
      respellResult ρ (if isLogicalOp op then combine op v w else binarySequence op v w) := by
    rw [hcombine, hsequence]
    split <;> rfl
  cases v with
  | expr x =>
    cases w with
    | expr y =>
      simp only [respell] at hcombine
      simp only [binary, respell, Expr.int?_respell, hcombine, binaryExpr_respell]
      split
      · rename_i m n _ _
        have hint := binaryInt?_respell (ρ := ρ) op m n
        cases hb : binaryInt? op m n <;> simp_all
      · split <;> rfl
    | _ => exact hother
  | _ => exact hother

theorem unary_respell (op : UnaryOp) (v : Value) :
    unary op (respell ρ v) = respellResult ρ (unary op v) := by
  cases op with
  | invert =>
    have hinvert (v : Value) : unary .invert v = v.int?.elim
        (if isLogical v then .ok (.formal .noNumber (operands v)) else .error .badOperand)
        fun n => .ok (.expr (.ofInt (-n - 1))) := by
      rw [unary]
      cases v.int? <;> rfl
    rw [hinvert, hinvert, int?_respell, isLogical_respell, operands_respell]
    cases v.int? with
    | some n => rfl
    | none =>
      rw [Option.elim_none, Option.elim_none]
      split <;> rfl
  | plus => cases v <;> rfl
  | minus => cases v <;> simp [unary, respell, ← ofExpr_respell]

/-! ### Calls -/

theorem assignments_respell {formals : List Text} {args : List Expr} {id : Text} :
    assignments formals (args.map (Expr.respell ρ)) id = (assignments formals args id).map
      (Expr.respell ρ) := by
  simp only [assignments, List.zip_map_right, List.find?_map, Function.comp_def, Prod.map,
    Option.map_map]
  rfl

/-- The arguments of a function bring their spelling with them. -/
theorem follows_assignments {formals : List Text} {args : List Expr} {id : Text}
    (hlength : args.length = formals.length)
    (h : id ∈ formals ∨ ρ.spell id = id) :
    Follows ρ .refl (assignments formals args) (assignments formals (args.map (Expr.respell ρ)))
      id := by
  refine ⟨assignments_respell, fun hnone => h.resolve_left fun hid => ?_⟩
  rw [assignments, Option.map_eq_none_iff, List.find?_eq_none] at hnone
  rw [← List.map_fst_zip hlength.ge, List.mem_map] at hid
  obtain ⟨p, hp, rfl⟩ := hid
  exact hnone p hp (beq_self_eq_true _)

theorem callRoutine_respell {r : Routine} (h : ∀ id ∈ r.body.symbols, id ∈ r.formals ∨ ρ.spell id =
    id) (args : List Expr) :
    callRoutine r (args.map (Expr.respell ρ)) = respellResult ρ (callRoutine r args) := by
  simp only [callRoutine, List.length_map]
  split
  · rfl
  · rename_i hlength
    have hlength : args.length = r.formals.length := by simpa using hlength
    have hreplace (e : Expr) (he : ∀ id ∈ e.symbols, id ∈ r.formals ∨ ρ.spell id = id) :
        e.replace (assignments r.formals (args.map (Expr.respell ρ))) =
          (e.replace (assignments r.formals args)).respell ρ := by
      have hfollows := Expr.replace_respell fun id hid => follows_assignments hlength (he id hid)
      rwa [Expr.respell_refl] at hfollows
    cases hb : r.body with
    | expr e =>
      rw [hb] at h
      simp only [hreplace e h, ofExpr_respell]
    | relation c a b =>
      rw [hb] at h
      obtain ⟨ha, hb⟩ := List.forall_mem_append.mp h
      simp only [hreplace a ha, hreplace b hb]
      exact relate_respell c (.expr _) (.expr _)
    | formal g e =>
      rw [hb] at h
      simp only [hreplace e h]
      rfl
    | _ => rfl

/-- A known name that is no function cannot be called. -/
theorem callName_of_mem {n : Text} (h : n ∈ s.symbols) (hroutine : s.routine? n = none)
    (hbuiltin : Builtin.ofName? n = none) (args : List Expr) :
    callName s n args = .error .badOperand := by
  rw [callName, hroutine, hbuiltin]
  exact if_pos (by simp [h])

theorem respell_foldr_joinPair (args : List Expr) :
    (args.foldr Expr.joinPair .zero).respell ρ =
      (args.map (Expr.respell ρ)).foldr Expr.joinPair .zero := by
  induction args with
  | nil => rfl
  | cons a args ih =>
    rw [List.foldr_cons, Expr.respell_joinPair, ih, List.map_cons, List.foldr_cons]

/-- What a name calls is called with respelled arguments, if its routine holds no symbols that are
spelled in another way. -/
theorem callName_respell {n : Text} (hroutine : s'.routine? n = s.routine? n)
    (hknown : n ∈ s'.symbols ↔ n ∈ s.symbols)
    (h : ∀ r, s.routine? n = some r → ∀ id ∈ r.body.symbols, id ∈ r.formals ∨ ρ.spell id = id)
    (args : List Expr) :
    callName s' n (args.map (Expr.respell ρ)) = respellResult ρ (callName s n args) := by
  have hcontains : s'.symbols.contains n = s.symbols.contains n := by
    rw [Bool.eq_iff_iff, List.contains_iff_mem, List.contains_iff_mem, hknown]
  rw [callName, callName, hroutine, hcontains]
  cases hr : s.routine? n with
  | some r => exact callRoutine_respell (h r hr) args
  | none =>
    cases Builtin.ofName? n with
    | some b =>
      simp only [Builtin.call?_respell]
      cases b.call? args with
      | some e => exact ofExpr_respell e
      | none => rfl
    | none =>
      dsimp only
      split
      · rfl
      · rw [← respell_foldr_joinPair, ← Expr.respell_applyUnknown, ofExpr_respell]

/-! ### Terms -/

/-- A name stands for what its new name stands for, in the new spelling. -/
structure Renames (ρ : Respelling) (s s' : Setting Routine) (f : Text → Text) (n : Text) :
    Prop where
  value : ofName (f n) = (ofName n).respell ρ
  call (args : List Expr) :
    callName s' (f n) (args.map (Expr.respell ρ)) = respellResult ρ (callName s n args)

theorem bind_respellResult {x : Result} {g g' : Value → Result}
    (h : ∀ v, g' (respell ρ v) = respellResult ρ (g v)) :
    (respellResult ρ x).bind g' = respellResult ρ (x.bind g) := by
  cases x with
  | error => rfl
  | ok v => exact h v

/-- Values with their symbols respelled. -/
def respellResults (ρ : Respelling) : Except Fault (List Value) → Except Fault (List Value) :=
  Except.map (List.map (respell ρ))

theorem bind_respellResults {x : Except Fault (List Value)} {g g' : List Value → Result}
    (h : ∀ vs, g' (vs.map (respell ρ)) = respellResult ρ (g vs)) :
    (respellResults ρ x).bind g' = respellResult ρ (x.bind g) := by
  cases x with
  | error => rfl
  | ok vs => exact h vs

theorem call_rename {t : Term} (h : ∀ n, .name n ∈ t.lexemes → Renames ρ s s' f n)
    (args : List Value) :
    call s' (t.rename f) (args.map (respell ρ)) = respellResult ρ (call s t args) := by
  cases t with
  | name n =>
    simp only [call, Term.rename, exprs?_respell]
    cases exprs? args with
    | none => rfl
    | some args => exact (h n (by simp [Term.lexemes])).call args
  | _ => rfl

/-- A chain of comparisons that may go on behind its first link. -/
theorem ofLinks_cons {c : Comparison} {cs : List Comparison} {t : Term} {ts : List Term}
    (h : ¬ (cs = [] ∧ ts = [])) : ofLinks s v (c :: cs) (t :: ts) =
      (ofTerm s t).bind fun w => (relate c v w).bind fun link => (goesOn link).bind fun more =>
        if more then ofLinks s w cs ts else .ok link := by
  cases cs with
  | nil =>
    cases ts with
    | nil => exact absurd ⟨rfl, rfl⟩ h
    | cons => rfl
  | cons => cases ts <;> rfl

mutual

/-- The renamed term has the respelled value. -/
theorem ofTerm_rename : ∀ t : Term, (∀ n, .name n ∈ t.lexemes → Renames ρ s s' f n) →
    ofTerm s' (t.rename f) = respellResult ρ (ofTerm s t)
  | .name n, h => by
    simp only [Term.rename, ofTerm, respellResult_ok, (h n (by simp [Term.lexemes])).value]
  | .whole _, _ => rfl
  | .decimal .., _ => rfl
  | .quoted, _ => rfl
  | .tuple ts, h => by
    simp only [Term.rename, ofTerm, ofTerms_rename ts h]
    exact bind_respellResults fun _ => rfl
  | .display ts, h => by
    simp only [Term.rename, ofTerm, ofTerms_rename ts h]
    exact bind_respellResults fun _ => rfl
  | .call t args, h => by
    have ht : ∀ n, .name n ∈ t.lexemes → Renames ρ s s' f n :=
      fun n hn => h n (List.mem_append_left _ hn)
    simp only [Term.rename, ofTerm, ofTerm_rename t ht,
      ofTerms_rename args fun n hn => h n (List.mem_append_right _ hn)]
    exact bind_respellResult fun _ => bind_respellResults fun vs => call_rename ht vs
  | .attribute t, h => by
    simp only [Term.rename, ofTerm, ofTerm_rename t h]
    exact bind_respellResult fun _ => rfl
  | .factorial double t, h => by
    simp only [Term.rename, ofTerm, ofTerm_rename t h]
    refine bind_respellResult fun v => ?_
    cases v with
    | expr e =>
      cases double with
      | true => simp [respell, ← ofExpr_respell]
      | false => simp [respell, ← ofExpr_respell]
    | _ => rfl
  | .unary op t, h => by
    simp only [Term.rename, ofTerm, ofTerm_rename t fun n hn => h n (List.mem_cons_of_mem _ hn)]
    exact bind_respellResult fun v => unary_respell op v
  | .binary op a b, h => by
    simp only [Term.rename, ofTerm,
      ofTerm_rename a fun n hn => h n (List.mem_cons_of_mem _ (List.mem_append_left _ hn)),
      ofTerm_rename b fun n hn => h n (List.mem_cons_of_mem _ (List.mem_append_right _ hn))]
    exact bind_respellResult fun v => bind_respellResult fun w => binary_respell op v w
  | .compare ops [], _ => rfl
  | .compare ops (t :: ts), h => by
    have hmore : ∀ n, .name n ∈ t.lexemes ++ Term.lexemesOf ts → Renames ρ s s' f n :=
      fun n hn => h n (List.mem_append_right _ hn)
    simp only [Term.rename, Term.renameAll, ofTerm,
      ofTerm_rename t fun n hn => hmore n (List.mem_append_left _ hn)]
    exact bind_respellResult fun v => ofLinks_rename v ops ts fun n hn =>
      hmore n (List.mem_append_right _ hn)

theorem ofTerms_rename : ∀ ts : List Term,
    (∀ n, .name n ∈ Term.lexemesOf ts → Renames ρ s s' f n) →
      ofTerms s' (Term.renameAll f ts) = respellResults ρ (ofTerms s ts)
  | [], _ => rfl
  | t :: ts, h => by
    rw [Term.renameAll, ofTerms, ofTerms,
      ofTerm_rename t fun n hn => h n (List.mem_append_left _ hn),
      ofTerms_rename ts fun n hn => h n (List.mem_append_right _ hn)]
    cases ofTerm s t with
    | error => rfl
    | ok v => cases ofTerms s ts <;> rfl

theorem ofLinks_rename (v : Value) : ∀ (cs : List Comparison) (ts : List Term),
    (∀ n, .name n ∈ Term.lexemesOf ts → Renames ρ s s' f n) →
      ofLinks s' (respell ρ v) cs (Term.renameAll f ts) = respellResult ρ (ofLinks s v cs ts)
  | [], ts, _ => by cases ts <;> rfl
  | _ :: _, [], _ => by simp [Term.renameAll, ofLinks]
  | c :: cs, t :: ts, h => by
    have hfirst := ofTerm_rename t fun n hn => h n (List.mem_append_left _ hn)
    have hmore (w : Value) := ofLinks_rename w cs ts fun n hn => h n (List.mem_append_right _ hn)
    rw [Term.renameAll]
    by_cases hlast : cs = [] ∧ ts = []
    · obtain ⟨rfl, rfl⟩ := hlast
      simp only [Term.renameAll, ofLinks, hfirst]
      exact bind_respellResult fun w => relate_respell c v w
    · rw [ofLinks_cons hlast, ofLinks_cons (by cases ts <;> simp_all [Term.renameAll]), hfirst]
      refine bind_respellResult fun w => ?_
      rw [relate_respell]
      refine bind_respellResult fun link => ?_
      rw [goesOn_respell]
      cases goesOn link with
      | error => rfl
      | ok more =>
        cases more with
        | true => exact hmore w
        | false => rfl

end

end Value

end Formulary
