import Formulary.Proofs.Calc.Term

/-! # Terms under other names

Grouping looks at operators and brackets only. A sequence of lexemes with other names is
read as the term with other names, and as much of it is left.
-/

namespace Formulary

/-- The lexeme with another name, if it is one. -/
def Lexeme.rename (f : Text → Text) : Lexeme → Lexeme
  | .name t => .name (f t)
  | l => l

namespace Term

variable {f : Text → Text} {t : Term} {ts : List Term} {ls : List Lexeme} {fuel level : Nat}
  {o : Text}

mutual

/-- The term with other names. -/
def rename (f : Text → Text) : Term → Term
  | .name t => .name (f t)
  | .tuple ts => .tuple (renameAll f ts)
  | .display ts => .display (renameAll f ts)
  | .call t args => .call (rename f t) (renameAll f args)
  | .attribute t => .attribute (rename f t)
  | .factorial double t => .factorial double (rename f t)
  | .unary op t => .unary op (rename f t)
  | .binary op a b => .binary op (rename f a) (rename f b)
  | .compare ops ts => .compare ops (renameAll f ts)
  | .whole n => .whole n
  | .decimal d c p => .decimal d c p
  | .quoted => .quoted

def renameAll (f : Text → Text) : List Term → List Term
  | [] => []
  | t :: ts => rename f t :: renameAll f ts

end

theorem renameAll_eq_map : renameAll f ts = ts.map (rename f) := by
  induction ts with
  | nil => rfl
  | cons t ts ih => rw [renameAll, ih, List.map_cons]

theorem rename_group {comma : Bool} :
    (group ts comma).rename f = group (ts.map (rename f)) comma := by
  unfold group
  rcases ts with _ | ⟨t, _ | ⟨u, ts⟩⟩ <;> cases comma <;> simp [rename, renameAll_eq_map]

theorem dropQuoted_rename :
    dropQuoted (ls.map (Lexeme.rename f)) = (dropQuoted ls).map (Lexeme.rename f) := by
  fun_induction dropQuoted ls with
  | case1 rest ih => simpa [dropQuoted, Lexeme.rename] using ih
  | case2 ls hnot =>
    rcases ls with _ | ⟨l, ls⟩
    · rfl
    · cases l <;> simp_all [dropQuoted, Lexeme.rename]

theorem bangs_rename (ls : List Lexeme) :
    bangs (ls.map (Lexeme.rename f)) = Prod.map id (List.map (Lexeme.rename f)) (bangs ls) := by
  fun_induction bangs ls with
  | case1 rest n after h ih => simp [bangs, Lexeme.rename, ih, h]
  | case2 ls hnot =>
    rcases ls with _ | ⟨l, ls⟩
    · rfl
    · cases l <;> simp_all [bangs, Lexeme.rename]

/-- A member of braces, which may be a pair. -/
def paired? (fuel : Nat) (t : Term) (ls : List Lexeme) : Option (List Term × List Lexeme) :=
  match ls with
  | .op [':'] :: rest => do
    let (u, rest) ← expression? fuel rest
    pure ([t, u], rest)
  | rest => pure ([t], rest)

/-- What follows a member of braces. -/
def displayedOn? (fuel : Nat) (ts : List Term) (ls : List Lexeme) :
    Option (List Term × List Lexeme) :=
  match ls with
  | .op ['\x7d'] :: rest => return (ts, rest)
  | .op [','] :: rest => do
    let (us, rest) ← displayed? fuel rest
    return (ts ++ us, rest)
  | _ => none

theorem displayed?_succ (h : ls.head? ≠ some (.op ['\x7d'])) : displayed? (fuel + 1) ls =
    (expression? fuel ls).bind fun p =>
      (paired? fuel p.1 p.2).bind fun q => displayedOn? fuel q.1 q.2 := by
  rw [displayed?.eq_def]
  dsimp only
  split
  · simp at h
  · refine Option.bind_congr fun p _ => ?_
    obtain ⟨t, rest⟩ := p
    rcases rest with _ | ⟨l, rest⟩
    · rfl
    · cases l with
      | op o =>
        by_cases ho : o = [':']
        · subst ho
          simp only [paired?, Option.bind_eq_bind, Option.bind_assoc]
          rfl
        · simp only [paired?, List.cons.injEq, Lexeme.op.injEq, ho, false_and, imp_self,
            implies_true]
          rfl
      | _ => rfl

theorem endings?_succ_op (hopening : o ≠ ['(']) (hpoint : o ≠ ['.']) :
    endings? (fuel + 1) t (.op o :: ls) = some (t, .op o :: ls) := by
  rw [endings?.eq_def]
  simp [hopening, hpoint]

/-- What is read from renamed lexemes, and what follows it. -/
abbrev renameRead (f : Text → Text) : Option (Term × List Lexeme) → Option (Term × List Lexeme) :=
  Option.map (Prod.map (rename f) (List.map (Lexeme.rename f)))

theorem paired?_rename (h : ∀ ls : List Lexeme,
      expression? fuel (ls.map (Lexeme.rename f)) = renameRead f (expression? fuel ls))
    (t : Term) (ls : List Lexeme) :
    paired? fuel (t.rename f) (ls.map (Lexeme.rename f)) =
      (paired? fuel t ls).map (Prod.map (List.map (rename f)) (List.map (Lexeme.rename f))) := by
  rcases ls with _ | ⟨l, ls⟩
  · rfl
  · cases l with
    | op o =>
      by_cases ho : o = [':']
      · subst ho
        simp only [List.map_cons, Lexeme.rename, paired?, h]
        cases expression? fuel ls <;> rfl
      · simp [paired?, Lexeme.rename, ho]
    | _ => rfl

theorem displayedOn?_rename (h : ∀ ls : List Lexeme, displayed? fuel (ls.map (Lexeme.rename f)) =
      (displayed? fuel ls).map (Prod.map (List.map (rename f)) (List.map (Lexeme.rename f))))
    (ts : List Term) (ls : List Lexeme) :
    displayedOn? fuel (ts.map (rename f)) (ls.map (Lexeme.rename f)) =
      (displayedOn? fuel ts ls).map
      (Prod.map (List.map (rename f)) (List.map (Lexeme.rename f))) := by
  rcases ls with _ | ⟨l, ls⟩
  · rfl
  · cases l with
    | op o =>
      by_cases hclose : o = ['\x7d']
      · subst hclose
        rfl
      · by_cases hcomma : o = [',']
        · subst hcomma
          simp only [List.map_cons, Lexeme.rename, displayedOn?, h]
          cases displayed? fuel ls <;> simp
        · simp [displayedOn?, Lexeme.rename, hclose, hcomma]
    | _ => rfl

mutual

theorem expression?_rename : ∀ (fuel : Nat) (ls : List Lexeme),
    expression? fuel (ls.map (Lexeme.rename f)) = renameRead f (expression? fuel ls)
  | 0, _ => rfl
  | fuel + 1, ls => by
    simp only [expression?, operation?_rename fuel, renameRead, Option.bind_eq_bind,
      Option.bind_map, Option.map_bind]
    refine Option.bind_congr fun p _ => ?_
    simp only [Function.comp_apply, Prod.map, comparisons?_rename fuel, Option.bind_map,
      Option.map_bind]
    refine Option.bind_congr fun q _ => ?_
    obtain ⟨ops, ts, rest⟩ := q
    cases ops <;> simp [rename, renameAll, renameAll_eq_map]

theorem comparisons?_rename : ∀ (fuel : Nat) (ls : List Lexeme),
    comparisons? fuel (ls.map (Lexeme.rename f)) =
      (comparisons? fuel ls).map
      (Prod.map id (Prod.map (List.map (rename f)) (List.map (Lexeme.rename f))))
  | 0, _ => rfl
  | fuel + 1, [] => rfl
  | fuel + 1, l :: ls => by
    cases l with
    | op o =>
      simp only [List.map_cons, Lexeme.rename, comparisons?]
      cases comparison? o with
      | none => rfl
      | some c =>
        simp only [operation?_rename fuel, renameRead, Option.bind_eq_bind, Option.bind_map,
          Option.map_bind]
        refine Option.bind_congr fun p _ => ?_
        simp only [Function.comp_apply, Prod.map, comparisons?_rename fuel, Option.bind_map,
          Option.map_bind]
        rfl
    | _ => rfl

theorem operation?_rename : ∀ (fuel level : Nat) (ls : List Lexeme),
    operation? fuel level (ls.map (Lexeme.rename f)) = renameRead f (operation? fuel level ls)
  | 0, _, _ => rfl
  | fuel + 1, level, ls => by
    simp only [operation?, signed?_rename fuel, renameRead, Option.bind_eq_bind, Option.bind_map,
      Option.map_bind]
    refine Option.bind_congr fun p _ => ?_
    exact operators?_rename fuel level p.1 p.2

theorem signed?_rename : ∀ (fuel : Nat) (ls : List Lexeme),
    signed? fuel (ls.map (Lexeme.rename f)) = renameRead f (signed? fuel ls)
  | 0, _ => rfl
  | fuel + 1, [] => primary?_rename fuel []
  | fuel + 1, l :: ls => by
    have hprimary := primary?_rename fuel (l :: ls)
    cases l with
    | op o =>
      simp only [List.map_cons, Lexeme.rename] at hprimary
      simp only [List.map_cons, Lexeme.rename, signed?]
      cases unaryOp? o with
      | none => exact hprimary
      | some u =>
        simp only [operation?_rename fuel, renameRead, Option.bind_eq_bind, Option.bind_map,
          Option.map_bind]
        rfl
    | _ => exact hprimary

theorem operators?_rename : ∀ (fuel level : Nat) (t : Term) (ls : List Lexeme),
    operators? fuel level (t.rename f) (ls.map (Lexeme.rename f)) =
      renameRead f (operators? fuel level t ls)
  | 0, _, _, _ => rfl
  | fuel + 1, _, _, [] => rfl
  | fuel + 1, level, t, l :: ls => by
    cases l with
    | op o =>
      simp only [List.map_cons, Lexeme.rename, operators?]
      rcases binaryOp? o with _ | ⟨l, op⟩
      · rfl
      · simp only
        split
        · rfl
        · simp only [operation?_rename fuel, renameRead, Option.bind_eq_bind, Option.bind_map,
            Option.map_bind]
          refine Option.bind_congr fun p _ => ?_
          exact operators?_rename fuel level (.binary op t p.1) p.2
    | _ => rfl

theorem primary?_rename : ∀ (fuel : Nat) (ls : List Lexeme),
    primary? fuel (ls.map (Lexeme.rename f)) = renameRead f (primary? fuel ls)
  | 0, _ => rfl
  | fuel + 1, [] => rfl
  | fuel + 1, l :: ls => by
    cases l with
    | name n => exact endings?_rename fuel (.name n) ls
    | whole n => exact endings?_rename fuel (.whole n) ls
    | decimal d c p => exact endings?_rename fuel (.decimal d c p) ls
    | quoted =>
      have hrest := endings?_rename fuel .quoted (dropQuoted ls)
      rw [← dropQuoted_rename] at hrest
      exact hrest
    | op o =>
      simp only [List.map_cons, Lexeme.rename, primary?]
      split
      · exact endings?_rename fuel .quoted ls
      · split
        · simp only [members?_rename fuel, renameRead, Option.bind_eq_bind, Option.bind_map,
            Option.map_bind]
          refine Option.bind_congr fun p _ => ?_
          simp only [Function.comp_apply, Prod.map, ← rename_group, endings?_rename fuel]
          rfl
        · split
          · simp only [displayed?_rename fuel, renameRead, Option.bind_eq_bind, Option.bind_map,
              Option.map_bind]
            refine Option.bind_congr fun p _ => ?_
            have hrest := endings?_rename fuel (.display p.1) p.2
            rw [rename, renameAll_eq_map] at hrest
            exact hrest
          · rfl
    | _ => rfl

theorem endings?_rename : ∀ (fuel : Nat) (t : Term) (ls : List Lexeme),
    endings? fuel (t.rename f) (ls.map (Lexeme.rename f)) = renameRead f (endings? fuel t ls)
  | 0, _, _ => rfl
  | fuel + 1, _, [] => rfl
  | fuel + 1, t, l :: ls => by
    cases l with
    | bang =>
      have hbangs := bangs_rename (f := f) (.bang :: ls)
      simp only [List.map_cons, Lexeme.rename] at hbangs
      simp only [List.map_cons, Lexeme.rename, endings?, hbangs, Prod.map, id]
      split
      · exact endings?_rename fuel (.factorial _ t) _
      · rfl
    | op o =>
      by_cases hopening : o = ['(']
      · subst hopening
        simp only [List.map_cons, Lexeme.rename, endings?, members?_rename fuel, renameRead,
          Option.bind_eq_bind, Option.bind_map, Option.map_bind]
        refine Option.bind_congr fun p _ => ?_
        have hrest := endings?_rename fuel (.call t p.1) p.2.2
        rw [rename, renameAll_eq_map] at hrest
        exact hrest
      · by_cases hpoint : o = ['.']
        · subst hpoint
          rcases ls with _ | ⟨l, ls⟩
          · rfl
          · cases l with
            | name n => exact endings?_rename fuel (.attribute t) ls
            | _ => rfl
        · simp only [List.map_cons, Lexeme.rename, endings?_succ_op hopening hpoint]
          rfl
    | _ => rfl

theorem members?_rename : ∀ (fuel : Nat) (close : Text) (ls : List Lexeme),
    members? fuel close (ls.map (Lexeme.rename f)) =
      (members? fuel close ls).map
      (Prod.map (List.map (rename f)) (Prod.map id (List.map (Lexeme.rename f))))
  | 0, _, _ => rfl
  | fuel + 1, close, [] => member?_rename fuel close []
  | fuel + 1, close, l :: ls => by
    have hmember := member?_rename fuel close (l :: ls)
    cases l with
    | op o =>
      simp only [List.map_cons, Lexeme.rename] at hmember
      simp only [List.map_cons, Lexeme.rename, members?]
      split
      · rfl
      · exact hmember
    | _ => exact hmember

theorem member?_rename : ∀ (fuel : Nat) (close : Text) (ls : List Lexeme),
    member? fuel close (ls.map (Lexeme.rename f)) =
      (member? fuel close ls).map
      (Prod.map (List.map (rename f)) (Prod.map id (List.map (Lexeme.rename f))))
  | 0, _, _ => rfl
  | fuel + 1, close, ls => by
    simp only [member?, expression?_rename fuel, renameRead, Option.bind_eq_bind, Option.bind_map,
      Option.map_bind]
    refine Option.bind_congr fun p _ => ?_
    obtain ⟨t, rest⟩ := p
    rcases rest with _ | ⟨l, rest⟩
    · rfl
    · cases l with
      | op o =>
        simp only [Function.comp_apply, Prod.map, List.map_cons, Lexeme.rename]
        split
        · rfl
        · split
          · simp only [members?_rename fuel, Option.bind_map, Option.map_bind]
            refine Option.bind_congr fun q _ => ?_
            simp [List.isEmpty_map]
          · rfl
      | _ => rfl

theorem displayed?_rename : ∀ (fuel : Nat) (ls : List Lexeme),
    displayed? fuel (ls.map (Lexeme.rename f)) =
      (displayed? fuel ls).map (Prod.map (List.map (rename f)) (List.map (Lexeme.rename f)))
  | 0, _ => rfl
  | fuel + 1, ls => by
    by_cases hclose : ls.head? = some (.op ['\x7d'])
    · obtain ⟨rest, rfl⟩ := List.head?_eq_some_iff.mp hclose
      rfl
    · have hclose' : (ls.map (Lexeme.rename f)).head? ≠ some (.op ['\x7d']) := by
        rcases ls with _ | ⟨l, ls⟩
        · simp
        · cases l <;> simp_all [Lexeme.rename]
      rw [displayed?_succ hclose, displayed?_succ hclose', expression?_rename fuel, renameRead,
        Option.bind_map, Option.map_bind]
      refine Option.bind_congr fun p _ => ?_
      have hpaired := paired?_rename (expression?_rename fuel) p.1 p.2
      simp only [Function.comp_apply, Prod.map, hpaired, Option.bind_map, Option.map_bind]
      refine Option.bind_congr fun q _ => ?_
      exact displayedOn?_rename (displayed?_rename fuel) q.1 q.2

end

/-- What follows an expression of a text. -/
def toEndOn? (fuel : Nat) (t : Term) (ls : List Lexeme) : Option (List Term × Bool) :=
  match ls with
  | [] | [.lineEnd] => return ([t], false)
  | .op [','] :: rest =>
    if rest = [] || rest = [.lineEnd] then return ([t], true)
    else do
      let (ts, comma) ← toEnd? fuel rest
      return (t :: ts, comma)
  | _ => none

theorem toEnd?_succ : toEnd? (fuel + 1) ls =
    (expression? fuel ls).bind fun p => toEndOn? fuel p.1 p.2 := by
  rw [toEnd?]
  rfl

theorem toEnd?_rename (fuel : Nat) (ls : List Lexeme) :
    toEnd? fuel (ls.map (Lexeme.rename f)) =
      (toEnd? fuel ls).map (Prod.map (List.map (rename f)) id) := by
  induction fuel generalizing ls with
  | zero => rfl
  | succ fuel ih =>
    rw [toEnd?_succ, toEnd?_succ, expression?_rename, renameRead, Option.bind_map, Option.map_bind]
    refine Option.bind_congr fun p _ => ?_
    obtain ⟨t, rest⟩ := p
    have hend (ls : List Lexeme) : ls.map (Lexeme.rename f) = [.lineEnd] ↔ ls = [.lineEnd] := by
      rcases ls with _ | ⟨l, _ | ⟨k, ls⟩⟩ <;> simp [Lexeme.rename]
      cases l <;> simp
    rcases rest with _ | ⟨l, rest⟩
    · rfl
    · cases l with
      | op o =>
        by_cases hcomma : o = [',']
        · subst hcomma
          simp only [Function.comp_apply, Prod.map, List.map_cons, Lexeme.rename, toEndOn?,
            List.map_eq_nil_iff, hend, ih]
          split
          · rfl
          · cases toEnd? fuel rest <;> rfl
        · simp [toEndOn?, Lexeme.rename, hcomma]
      | lineEnd => cases rest <;> rfl
      | _ => rfl

/-- A text whose lexemes are those of another with other names spells its term with these names. -/
theorem ofText?_rename {u v : Text} (h : Lexeme.ofText? v =
    (Lexeme.ofText? u).map (List.map (Lexeme.rename f))) :
    ofText? v = (ofText? u).map (rename f) := by
  simp only [ofText?, h, Option.bind_eq_bind, Option.bind_map, Option.map_bind]
  refine Option.bind_congr fun ls _ => ?_
  simp only [Function.comp_apply, fuelFor, List.length_map, toEnd?_rename, Option.bind_map,
    Option.map_bind]
  refine Option.bind_congr fun p _ => ?_
  simp [rename_group]

end Formulary.Term
