import Mathlib.Tactic.NormNum
import Formulary.Calc.Leading
import Formulary.Calc.Size
import Formulary.Proofs.Calc.Over.Size
import Formulary.Proofs.Calc.Respell.Basic

/-! # Sums of respelled expressions

Approximations and what is known of a value do not look at how symbols are spelled. Terms
are collected as they were, and the sum is respelled. The sign that leads a sum is that of
its first term in an order of its own, by ranks: these hold spellings and are compared as
sequences, so they are in the same order respelled.
-/

namespace Formulary.Expr

variable {ρ : Respelling} {a b e f : Expr} {es : List Expr}

theorem foldl_map_comm {α β : Type} {f : β → α → β} {k : α → α} {g : β → β}
    (h : ∀ x a, f (g x) (k a) = g (f x a)) (x : β) {l : List α} :
    (l.map k).foldl f (g x) = g (l.foldl f x) := by
  rw [List.foldl_map]
  exact List.foldl_hom g h

/-! ### Approximations -/

@[simp, grind =] theorem approx_respell (p : Nat) (e : Expr) :
    approx p (respell ρ e) = approx p e := by
  induction e with
  | pow a b iha ihb =>
    by_cases ha : a = .const .e
    · subst ha
      simp [respell, approx, ihb]
    · have ha' : respell ρ a ≠ .const .e := fun h => ha (of_respell_eq_const h)
      simp [respell, approx, iha, ihb]
  | add a b iha ihb | mul a b iha ihb | fn2 g a b iha ihb => simp [respell, approx, iha, ihb]
  | fn g a ih => simp [respell, approx, ih]
  | _ => rfl

@[simp, grind =] theorem value?_respell (e : Expr) :
    value? (respell ρ e) = value? e := approx_respell _ e

@[simp, grind =] theorem realValue?_respell (e : Expr) :
    realValue? (respell ρ e) = realValue? e := by
  simp [realValue?]

@[simp, grind =] theorem sign?_respell (e : Expr) : sign? (respell ρ e) = sign? e := by
  grind [sign?.eq_def]

@[simp, grind =] theorem splitTerm_respell (e : Expr) :
    splitTerm (respell ρ e) = ((splitTerm e).1, (splitTerm e).2.map (respell ρ)) := by
  grind [splitTerm.eq_def]

@[grind →] theorem of_splitTerm_respell_some {s : Scalar} (h : splitTerm (respell ρ e) =
    (s, some f)) :
    ∃ r, splitTerm e = (s, some r) ∧ respell ρ r = f := by
  rw [splitTerm_respell] at h
  rcases hs : splitTerm e with ⟨c, _ | r⟩ <;> simp_all

@[grind →] theorem of_splitTerm_respell_none {s : Scalar} (h : splitTerm (respell ρ e) =
    (s, none)) :
    splitTerm e = (s, none) := by
  rw [splitTerm_respell] at h
  rcases hs : splitTerm e with ⟨c, _ | r⟩ <;> simp_all

theorem nature_of_isConstant (h : isConstant e = true) (hnum : ∀ s, e ≠ .num s) :
    nature e = (value? e).elim {} Nature.ofComplex := by
  rw [nature.eq_def]
  split
  · exact absurd rfl (hnum _)
  · rw [if_pos h]

@[simp, grind =] theorem nature_respell (e : Expr) : nature (respell ρ e) = nature e := by
  fun_induction nature e with
  | case1 => rfl
  | case2 e hnum hconst =>
    rw [nature_of_isConstant ((isConstant_respell e).trans hconst), value?_respell]
    exact fun s h => hnum s (of_respell_eq_num h)
  | case3 a b _ hc iha ihb | case4 a b _ hc iha ihb | case9 g a b _ hc iha ihb =>
    have hc' := (isConstant_respell (ρ := ρ) _).trans (Bool.eq_false_iff.mpr hc)
    simp_all [respell, nature]
  | case5 b _ hc ih =>
    have hc' := (isConstant_respell (ρ := ρ) _).trans (Bool.eq_false_iff.mpr hc)
    simp_all [respell, nature]
  | case6 a b hbase _ hc iha ihb =>
    have hc' := (isConstant_respell (ρ := ρ) _).trans (Bool.eq_false_iff.mpr hc)
    have hbase' : respell ρ a = .const .e → False := fun h => hbase (of_respell_eq_const h)
    simp_all [respell, nature]
  | case7 s a surplus log _ hc ih =>
    have hc' := (isConstant_respell (ρ := ρ) _).trans (Bool.eq_false_iff.mpr hc)
    simp_all [respell, nature, surplus, log]
  | case8 f a hlog _ hc ih =>
    have hc' := (isConstant_respell (ρ := ρ) _).trans (Bool.eq_false_iff.mpr hc)
    have hlog' : ∀ s b, f = .log → respell ρ a = .add (.num s) b → False := by
      intro s b hf h
      obtain ⟨x, y, rfl, hx, -⟩ := of_respell_eq_add h
      exact hlog s y hf (by rw [of_respell_eq_num hx])
    simp_all [respell, nature]
  | case10 e => cases e <;> simp_all [respell, nature, isConstant]

@[simp, grind =] theorem isImaginary_respell (e : Expr) :
    isImaginary (respell ρ e) = isImaginary e := by
  simp [isImaginary]

/-! ### Terms -/

theorem isSum_respell (e : Expr) : isSum (respell ρ e) = isSum e := by cases e <;> rfl

@[simp, grind =] theorem respell_withCoefficient (s : Scalar) (e : Expr) :
    respell ρ (withCoefficient s e) = withCoefficient s (respell ρ e) := by
  unfold withCoefficient
  split <;> rfl

theorem spreadTerms_respell (es : List Expr) :
    spreadTerms (es.map (respell ρ)) = (spreadTerms es).map (respell ρ) := by
  simp [spreadTerms, List.filter_map, List.flatMap_map, List.map_flatMap, Function.comp_def,
    isSum_respell]

theorem collect_respell (t : Expr) (s : Scalar) (entries : List (Expr × Scalar)) :
    collect (respell ρ t) s (entries.map (Prod.map (respell ρ) id)) =
      (collect t s entries).map (Prod.map (respell ρ) id) := by
  induction entries with
  | nil => rfl
  | cons entry entries ih =>
    simp only [List.map_cons, Prod.map, collect, id, respell_inj]
    split
    · rfl
    · rw [ih]
      rfl

theorem gatherTerms_respell (es : List Expr) :
    gatherTerms (es.map (respell ρ)) = Prod.map id (List.map (Prod.map (respell ρ) id))
      (gatherTerms es) := by
  unfold gatherTerms
  rw [spreadTerms_respell]
  refine foldl_map_comm (g := Prod.map id (List.map (Prod.map (respell ρ) id))) ?_ (Scalar.zero, [])
  rintro ⟨total, entries⟩ e
  dsimp only [Prod.map, id]
  rw [splitTerm_respell]
  rcases splitTerm e with ⟨s, _ | r⟩
  · rfl
  · simp [collect_respell]

theorem isSwallowed_respell (total : Scalar) (e : Expr) :
    isSwallowed total (respell ρ e) = isSwallowed total e := by
  simp [isSwallowed]

theorem besideTotal_respell (total : Scalar) (es : List Expr) :
    besideTotal total (es.map (respell ρ)) = (besideTotal total es).map (respell ρ) := by
  unfold besideTotal
  split
  · rfl
  · simp [List.filter_map, Function.comp_def, isSwallowed_respell]

theorem contains_respell_interval :
    (es.map (respell ρ)).contains interval = es.contains interval := by
  grind

theorem respell_buildSum (total : Scalar) (entries : List (Expr × Scalar)) :
    respell ρ (buildSum total entries) =
      buildSum total (entries.map (Prod.map (respell ρ) id)) := by
  have hkept : (((entries.map (Prod.map (respell ρ) id)).filter fun t => !t.2.isZero).map
      fun t => withCoefficient t.2 t.1) = ((entries.filter fun t => !t.2.isZero).map
      fun t => withCoefficient t.2 t.1).map (respell ρ) := by
    simp [List.filter_map, Function.comp_def]
  simp only [buildSum]
  rw [hkept, besideTotal_respell, inOrder_respell, contains_respell_interval, List.any_map]
  simp only [Function.comp_def, Prod.map, id]
  split_ifs <;> simp

@[simp] theorem respell_sum (es : List Expr) :
    respell ρ (sum es) = sum (es.map (respell ρ)) := by
  unfold sum
  rw [firstFault?_respell]
  split
  · rfl
  · simp only [gatherTerms_respell, Prod.map, id, respell_buildSum]

@[simp, grind =] theorem respell_scaleTerm (s : Scalar) (e : Expr) :
    respell ρ (scaleTerm s e) = scaleTerm s (respell ρ e) := by
  unfold scaleTerm
  rw [splitTerm_respell]
  grind

@[simp, grind =] theorem respell_timesScalar (s : Scalar) (e : Expr) :
    respell ρ (timesScalar s e) = timesScalar s (respell ρ e) := by
  unfold timesScalar
  cases e with
  | add a b =>
    have hmap := List.map_map (g := respell ρ) (f := scaleTerm s) (l := terms (.add a b))
    have hterms := terms_respell (ρ := ρ) (.add a b)
    simp only [respell] at hterms ⊢
    split_ifs
    · rfl
    · simp [hterms, Function.comp_def]
  | failed f => rfl
  | num t => rfl
  | _ =>
    simp only [respell]
    split_ifs
    · rfl
    · first | rfl | exact respell_scaleTerm _ _

@[simp, grind =] theorem respell_negate (e : Expr) : respell ρ (negate e) = negate (respell ρ e) :=
  respell_timesScalar _ e

@[simp, grind =] theorem respell_difference (a b : Expr) :
   respell ρ (difference a b) = difference (respell ρ a) (respell ρ b) := by
  simp [difference]

/-! ### Terms by generators -/

theorem rankLt_eq {s t : List Rat} : rankLt s t = decide (s < t) := by
  induction s generalizing t with
  | nil => cases t <;> simp [rankLt]
  | cons x s ih =>
    cases t with
    | nil => simp [rankLt]
    | cons y t => rw [rankLt, ih]; simp [List.cons_lt_cons_iff, beq_eq_decide]

theorem characters_eq (t : Text) : characters t = codes t := rfl

@[simp] theorem generator_respell (e : Expr) :
    generator (respell ρ e) = Prod.map (respell ρ) id (generator e) := by
  grind [generator.eq_def]

theorem generators_respell (e : Expr) :
    generators (respell ρ e) = (generators e).map (Prod.map (respell ρ) id) := by
  simp [generators, List.filter_map, Function.comp_def]

theorem constantPart_respell (e : Expr) : constantPart (respell ρ e) = constantPart e := by
  have h := value?_respell (ρ := ρ) (mulChain ((factors e).filter isConstant))
  simpa [constantPart, List.filter_map, Function.comp_def] using h

theorem isPlainNumber_respell (e : Expr) : isPlainNumber (respell ρ e) = isPlainNumber e := by
  rcases e with _ | c | _ | _ | _ | _ | _ | _ | _ | _ | _ | _
  case const => cases c <;> rfl
  all_goals rfl

theorem isPlainDifference_respell (es : List Expr) :
    isPlainDifference (es.map (respell ρ)) = isPlainDifference es := by
  grind [isPlainDifference.eq_def, isPlainNumber_respell]

theorem numbersFirst_respell (es : List Expr) :
    numbersFirst (es.map (respell ρ)) = (numbersFirst es).map (respell ρ) := by
  simp [numbersFirst, List.filter_map, Function.comp_def, isPlainNumber_respell]

theorem exponentOf_respell (g : Expr) (gs : List (Expr × Int)) :
    exponentOf (respell ρ g) (gs.map (Prod.map (respell ρ) id)) = exponentOf g gs := by
  simp [exponentOf, List.foldl_map]

theorem eraseDups_map_respell (es : List Expr) :
    (es.map (respell ρ)).eraseDups = es.eraseDups.map (respell ρ) := by
  cases es with
  | nil => rfl
  | cons e es =>
    have h := eraseDups_map_respell (es.filter fun b => !b == e)
    rw [List.map_cons, List.eraseDups_cons, List.eraseDups_cons, List.map_cons, ← h,
      List.filter_map]
    simp [Function.comp_def, beq_eq_decide]
termination_by es.length
decreasing_by exact Nat.lt_succ_of_le (List.length_filter_le ..)

theorem sortByRank_respell {r r' : Expr → List Rat}
    (h : ∀ a ∈ es, ∀ b ∈ es, rankLt (r' (respell ρ a)) (r' (respell ρ b)) = rankLt (r a) (r b)) :
    sortByRank r' (es.map (respell ρ)) = (sortByRank r es).map (respell ρ) := by
  have hmap := List.map_mergeSort (f := fun p : List Rat × Expr =>
    (r' (respell ρ p.2), respell ρ p.2))
    (r := fun a b => !rankLt b.1 a.1) (s := fun a b => !rankLt b.1 a.1)
    (l := es.map fun e => (r e, e)) (by simp; grind)
  simp only [List.map_map, Function.comp_def] at hmap
  simp only [sortByRank, List.map_map, Function.comp_def, ← hmap]

/-- The key by which terms with these generators are ordered. -/
def termKey (all : List Expr) (e : Expr) : List Rat :=
  all.map (fun g => (-(exponentOf g (generators e)) : Rat)) ++
    match constantPart e with
    | some z => [if z.im.isZero then 0 else 1, z.im.toRat, z.re.toRat]
    | none => []

theorem termKey_respell (all : List Expr) (e : Expr) :
    termKey (all.map (respell ρ)) (respell ρ e) = termKey all e := by
  simp [termKey, generators_respell, constantPart_respell, exponentOf_respell, Function.comp_def]

theorem termsInOrder_eq {r : Expr → List Rat} :
    termsInOrder r es =
      if isPlainDifference (numbersFirst es) then numbersFirst es
      else sortByRank
        (termKey (sortByRank r (((es.flatMap generators).map (·.1)).eraseDups))) es := rfl

theorem termsInOrder_respell {r : Expr → List Rat}
    (h : ∀ a b, rankLt (r (respell ρ a)) (r (respell ρ b)) = rankLt (r a) (r b)) :
    termsInOrder r (es.map (respell ρ)) = (termsInOrder r es).map (respell ρ) := by
  have hgenerators : ((es.map (respell ρ)).flatMap generators).map (·.1) =
      ((es.flatMap generators).map (·.1)).map (respell ρ) := by
    simp [List.flatMap_map, List.map_flatMap, generators_respell, Function.comp_def]
  rw [termsInOrder_eq, termsInOrder_eq, numbersFirst_respell, isPlainDifference_respell,
    hgenerators,
    eraseDups_map_respell, sortByRank_respell fun a _ b _ => h a b]
  split
  · rfl
  · exact sortByRank_respell fun a _ b _ => by rw [termKey_respell, termKey_respell]

/-! ### Ranks -/

/-- A member of a term as the base and the exponent by which it is ranked. -/
def rankPower (r : Expr) : Expr × Expr :=
  match r with
  | .pow (.const .e) _ => (r, one)
  | .pow b x => (b, x)
  | r => (r, one)

/-- What is ranked below a base, in order. -/
def rankParts (r : Expr → List Rat) : Expr → List Expr
  | .add a b => termsInOrder r (terms (.add a b))
  | .mul a b => sortByRank r (factors (.mul a b))
  | .pow (.const .e) y => [y]
  | .pow c y => [c, y]
  | .fn _ a | .unknown _ a => [a]
  | .fn2 _ a c | .pair a c => [a, c]
  | _ => []

/-- What a base without parts has for rank. -/
def rankLeaf : Expr → List (List Rat)
  | .sym id => [characters id]
  | .num t => [[scalarRank t]]
  | .const _ | .interval | .failed _ => [[]]
  | _ => []

/-- What the rank of a term with this base begins with. -/
def rankHead (r : Expr → List Rat) (b : Expr) : List Rat :=
  kindRank b ++ [((rankLeaf b).length + (rankParts r b).length : Rat)] ++ (rankLeaf b).flatten

/-- The ranks of the members of a base. -/
def rankMembers (r : Expr → List Rat) (b : Expr) : List (List Rat) :=
  match b with
  | .add .. => (termsInOrder r (terms b)).map r
  | .mul .. => (sortByRank r (factors b)).map r
  | .pow (.const .e) y => [r y]
  | .pow c y => [r c, r y]
  | .fn _ a | .unknown _ a => [r a]
  | .fn2 _ a c | .pair a c => [r a, r c]
  | .sym id => [characters id]
  | .num t => [[scalarRank t]]
  | _ => [[]]

theorem rankMembers_eq (r : Expr → List Rat) (b : Expr) :
    rankMembers r b = rankLeaf b ++ (rankParts r b).map r := by
  cases b with
  | pow c y => grind [rankMembers.eq_def, rankLeaf.eq_def, rankParts.eq_def]
  | _ => rfl

theorem rank_of_none {n : Nat} {s : Scalar} (h : splitTerm e = (s, none)) :
    rank (n + 1) e = [1, 0, 0, scalarRank s] := by
  rw [rank, h]

theorem rank_of_some {n : Nat} {s : Scalar} {r : Expr} (h : splitTerm e = (s, some r)) :
    rank (n + 1) e = rankHead (rank n) (rankPower r).1 ++
      ((rankParts (rank n) (rankPower r).1 ++ [(rankPower r).2]).flatMap (rank n) ++
      [scalarRank s]) := by
  rw [rank, h]
  change kindRank (rankPower r).1 ++ [((rankMembers (rank n) (rankPower r).1).length : Rat)] ++
    (rankMembers (rank n) (rankPower r).1).flatten ++ rank n (rankPower r).2 ++ [scalarRank s] = _
  simp [rankMembers_eq, rankHead, List.flatMap_def]

@[simp] theorem rankPower_respell (e : Expr) :
    rankPower (respell ρ e) = Prod.map (respell ρ) (respell ρ) (rankPower e) := by
  grind [rankPower.eq_def]

theorem rankParts_respell {r : Expr → List Rat}
    (h : ∀ a b, rankLt (r (respell ρ a)) (r (respell ρ b)) = rankLt (r a) (r b)) (e : Expr) :
    rankParts r (respell ρ e) = (rankParts r e).map (respell ρ) := by
  cases e with
  | add a b =>
    have hterms := terms_respell (ρ := ρ) (.add a b)
    rw [respell] at hterms
    simp only [rankParts, respell, hterms, termsInOrder_respell h]
  | mul a b =>
    have hfactors := factors_respell (ρ := ρ) (.mul a b)
    rw [respell] at hfactors
    simp only [rankParts, respell, hfactors, sortByRank_respell fun a _ b _ => h a b]
  | pow a b => grind [rankParts.eq_def]
  | _ => rfl

/-- The numbers behind the first two of a head without a text. -/
def rankWidth (x y : Rat) : Nat :=
  if x = 1 ∨ x = 4 ∨ (x = 2 ∧ y = 0) then 2 else if x = 2 ∨ x = 3 ∨ x = 5 then 1 else 0

/-- The parts behind a head, the exponent counted. A number as a whole has none. -/
def rankArity : List Rat → Rat
  | x :: y :: w =>
    if x = 1 then w.headD 0 else if x = 2 ∨ x = 7 ∨ x = 8 then 1 else (y :: w).getLastD 0 + 1
  | _ => 0

/-- A head holds the name of a symbol, which is respelled with it, or that of a function, or as many
numbers as its first two tell. -/
inductive Headed (ρ : Respelling) : List Rat → List Rat → Nat → Prop
  | symbol (t : Text) : Headed ρ ([2, 4, 1] ++ codes t) ([2, 4, 1] ++ codes (ρ.spell t)) 1
  | unknown (t : Text) : Headed ρ ([4, 0] ++ codes t ++ [1]) ([4, 0] ++ codes t ++ [1]) 2
  | plain {x y : Rat} {w : List Rat} {k : Nat} (hs : (x, y) ≠ (2, 4)) (hu : (x, y) ≠ (4, 0))
      (hw : w.length = rankWidth x y) (hk : (k : Rat) = rankArity (x :: y :: w)) :
      Headed ρ (x :: y :: w) (x :: y :: w) k

theorem headed {r : Expr → List Rat}
    (h : ∀ a b, rankLt (r (respell ρ a)) (r (respell ρ b)) = rankLt (r a) (r b)) (e : Expr) :
    Headed ρ (rankHead r e) (rankHead r (respell ρ e)) ((rankParts r e).length + 1) := by
  have hlength := congrArg List.length (rankParts_respell h e)
  rw [List.length_map] at hlength
  cases e with
  | num s =>
    cases s <;> exact .plain (by decide) (by decide) (by simp [rankLeaf, rankWidth, scalarRank])
      (by simp [rankArity, rankParts, rankLeaf])
  | const c =>
    cases c <;> exact .plain (by decide) (by decide) (by simp [rankLeaf, rankWidth])
      (by simp [rankArity, rankParts])
  | sym id =>
    simpa [rankHead, respell, kindRank, rankLeaf, rankParts, characters_eq] using Headed.symbol
      (ρ := ρ) id
  | unknown name a =>
    simpa [rankHead, respell, kindRank, rankLeaf, rankParts, characters_eq] using Headed.unknown
      (ρ := ρ) name
  | fn f a =>
    exact .plain (by simp) (by cases f <;> decide) (by simp [rankWidth, rankLeaf])
      (by norm_num [rankArity, rankParts, rankLeaf])
  | fn2 f a b =>
    cases f <;> exact .plain (by decide) (by decide) (by simp [rankWidth, rankLeaf])
      (by norm_num [rankArity, rankParts, rankLeaf])
  | pow a b =>
    by_cases ha : a = .const .e
    · subst ha
      exact .plain (by decide) (by decide) (by simp [rankWidth, rankLeaf])
        (by norm_num [rankArity, rankParts, rankLeaf])
    · have hkind : kindRank (.pow a b) = [3, 2] := by grind [kindRank.eq_def]
      have hkind' : kindRank (respell ρ (.pow a b)) = [3, 2] := by grind [kindRank.eq_def]
      simp only [rankHead, hlength, hkind, hkind']
      exact .plain (by decide) (by decide) (by simp [rankWidth, rankLeaf])
        (by simp [rankArity, rankLeaf])
  | add a b =>
    simp only [rankHead, hlength]
    exact .plain (by decide) (by decide) (by simp [rankWidth, rankLeaf])
      (by simp [rankArity, rankLeaf])
  | mul a b =>
    simp only [rankHead, hlength]
    exact .plain (by decide) (by decide) (by simp [rankWidth, rankLeaf])
      (by simp [rankArity, rankLeaf])
  | _ =>
    exact .plain (by simp) (by simp) (by simp [rankWidth, rankLeaf])
      (by norm_num [rankArity, rankParts, rankLeaf])

/-- Heads that differ decide the order, and else there are as many parts behind both. -/
theorem alike_head {l m l' m' u v u' v' : List Rat} {j k : Nat} (hl : Headed ρ l l' j)
    (hm : Headed ρ m m' k) (h : j = k → Alike u v u' v') :
    Alike (l ++ u) (m ++ v) (l' ++ u') (m' ++ v') := by
  cases hl with
  | symbol s =>
    cases hm with
    | symbol t =>
      simp only [List.append_assoc]
      exact .append rfl fun _ => .spelled fun _ => h rfl
    | unknown t => exact .cons fun h => absurd h (by decide)
    | plain hs =>
      refine .cons ?_
      rintro rfl
      refine .cons ?_
      rintro rfl
      exact absurd rfl hs
  | unknown s =>
    cases hm with
    | symbol t => exact .cons fun h => absurd h (by decide)
    | unknown t =>
      simp only [List.append_assoc]
      exact .append rfl fun _ => .texts Iff.rfl rfl rfl fun _ => .append rfl fun _ => h rfl
    | plain _ hu =>
      refine .cons ?_
      rintro rfl
      refine .cons ?_
      rintro rfl
      exact absurd rfl hu
  | plain hs hu hw hk =>
    cases hm with
    | symbol t =>
      refine .cons ?_
      rintro rfl
      refine .cons ?_
      rintro rfl
      exact absurd rfl hs
    | unknown t =>
      refine .cons ?_
      rintro rfl
      refine .cons ?_
      rintro rfl
      exact absurd rfl hu
    | plain _ _ hw' hk' =>
      refine .cons ?_
      rintro rfl
      refine .cons ?_
      rintro rfl
      refine .append (hw.trans hw'.symm) ?_
      rintro rfl
      exact h (Nat.cast_injective (hk.trans hk'.symm))

/-- A rank is a head, the ranks of the parts behind it and a coefficient where there are parts. -/
theorem rank_split {n : Nat}
    (h : ∀ a b, rankLt (rank n (respell ρ a)) (rank n (respell ρ b)) = rankLt (rank n a) (rank n b))
    (e : Expr) :
    ∃ (head head' : List Rat) (parts : List Expr) (coda : List Rat) (k : Nat),
      Headed ρ head head' k ∧ parts.length = k ∧ coda.length = min k 1 ∧
      rank (n + 1) e = head ++ (parts.flatMap (rank n) ++ coda) ∧
      rank (n + 1) (respell ρ e) = head' ++ ((parts.map (respell ρ)).flatMap (rank n) ++ coda) := by
  rcases hsplit : splitTerm e with ⟨s, _ | r⟩
  · have hsplit' : splitTerm (respell ρ e) = (s, none) := by simp [hsplit]
    exact ⟨[1, 0, 0, scalarRank s], _, [], [], 0,
      .plain (by decide) (by decide) (by simp [rankWidth]) (by simp [rankArity]), rfl, rfl,
      rank_of_none hsplit, rank_of_none hsplit'⟩
  · have hsplit' : splitTerm (respell ρ e) = (s, some (respell ρ r)) := by simp [hsplit]
    refine ⟨_, _, rankParts (rank n) (rankPower r).1 ++ [(rankPower r).2], [scalarRank s], _,
      headed h (rankPower r).1, by simp, by simp, rank_of_some hsplit, ?_⟩
    simp [rank_of_some hsplit', rankParts_respell h]

theorem alike_rank (n : Nat) (e f : Expr) {u v u' v' : List Rat} (h : Alike u v u' v') :
    Alike (rank n e ++ u) (rank n f ++ v)
      (rank n (respell ρ e) ++ u') (rank n (respell ρ f) ++ v') := by
  induction n generalizing e f u v u' v' with
  | zero => exact h
  | succ n ih =>
    have hlt (a b : Expr) :
        rankLt (rank n (respell ρ a)) (rank n (respell ρ b)) = rankLt (rank n a) (rank n b) := by
      simpa [rankLt_eq] using (ih a b Alike.refl (u := []) (v := [])).1
    have hparts : ∀ (es fs : List Expr) {u v u' v' : List Rat}, es.length = fs.length →
        Alike u v u' v' → Alike (es.flatMap (rank n) ++ u) (fs.flatMap (rank n) ++ v)
          ((es.map (respell ρ)).flatMap (rank n) ++ u') ((fs.map (respell ρ)).flatMap (rank n) ++
            v') := by
      intro es
      induction es with
      | nil =>
        intro fs _ _ _ _ hlength hrest
        obtain rfl := List.length_eq_zero_iff.mp hlength.symm
        exact hrest
      | cons a es ihes =>
        intro fs _ _ _ _ hlength hrest
        cases fs with
        | nil => simp at hlength
        | cons b fs => simpa using ih a b (ihes fs (by simpa using hlength) hrest)
    obtain ⟨l, l', ps, c, j, hl, hj, hc, he, he'⟩ := rank_split hlt e
    obtain ⟨m, m', qs, d, k, hm, hk, hd, hf, hf'⟩ := rank_split hlt f
    rw [he, he', hf, hf']
    simp only [List.append_assoc]
    refine alike_head hl hm ?_
    rintro rfl
    exact hparts ps qs (hj.trans hk.symm) (.append (hc.trans hd.symm) fun _ => h)

theorem rankLt_rank_respell (n : Nat) (e f : Expr) :
    rankLt (rank n (respell ρ e)) (rank n (respell ρ f)) = rankLt (rank n e) (rank n f) := by
  simpa [rankLt_eq] using (alike_rank n e f Alike.refl (u := []) (v := [])).1

/-! ### Depth -/

theorem size_le_of_mem_terms (h : a ∈ terms e) : size a ≤ size e := by
  induction e with
  | add x y ihx ihy =>
    rcases List.mem_append.mp h with h | h
    · exact (ihx h).trans (by simp only [size]; omega)
    · exact (ihy h).trans (by simp only [size]; omega)
  | _ => simp_all [terms]

theorem size_le_of_mem_factors (h : a ∈ factors e) : size a ≤ size e := by
  induction e with
  | mul x y ihx ihy =>
    rcases List.mem_append.mp h with h | h
    · exact (ihx h).trans (by simp only [size]; omega)
    · exact (ihy h).trans (by simp only [size]; omega)
  | _ => simp_all [factors]

theorem size_pos (e : Expr) : 0 < size e := by
  cases e <;> simp [size]

theorem size_splitTerm {s : Scalar} {r : Expr} (h : splitTerm e = (s, some r)) :
    size r ≤ size e := by
  grind [splitTerm.eq_def, size]

theorem size_unitTerm {q : Rat} {t : Expr} (h : splitTerm e = (.exact q, some t)) :
    size (withCoefficient (.exact (1 / q.den)) t) ≤ size e := by
  have hone : withCoefficient (.exact (1 / (1 : Rat).den)) t = t := by
    simp [withCoefficient, Scalar.one]
  unfold splitTerm at h
  split at h
  · simp at h
  · obtain ⟨-, rfl⟩ : _ ∧ _ = t := by simpa using h
    unfold withCoefficient
    split <;> simp only [size] <;> omega
  · obtain ⟨hq, rfl⟩ : (1 : Rat) = q ∧ e = t := by simpa [Scalar.one] using h
    rw [← hq, hone]

theorem size_generator (e : Expr) : size (generator e).1 ≤ size e := by
  have hunit := @size_unitTerm
  grind [generator.eq_def, size, ofRat]

theorem sortByRank_congr {r r' : Expr → List Rat} (h : ∀ e ∈ es, r e = r' e) :
    sortByRank r es = sortByRank r' es := by
  have hkeys : es.map (fun e => (r e, e)) = es.map fun e => (r' e, e) :=
    List.map_congr_left fun e he => by rw [h e he]
  rw [sortByRank, hkeys, sortByRank]

theorem termsInOrder_congr {r r' : Expr → List Rat} {n : Nat} (hes : ∀ e ∈ es, size e ≤ n)
    (h : ∀ e, size e ≤ n → r e = r' e) : termsInOrder r es = termsInOrder r' es := by
  have hgenerators : ∀ g ∈ ((es.flatMap generators).map (·.1)).eraseDups, r g = r' g := by
    intro g hg
    simp only [List.mem_eraseDups, generators, List.map_flatMap, List.map_map, List.mem_flatMap,
      List.mem_map,
      List.mem_filter, Function.comp_apply] at hg
    obtain ⟨e, he, f, ⟨hf, -⟩, rfl⟩ := hg
    exact h _ ((size_generator f).trans ((size_le_of_mem_factors hf).trans (hes e he)))
  rw [termsInOrder_eq, termsInOrder_eq, sortByRank_congr hgenerators]

theorem mem_termsInOrder {r : Expr → List Rat} : a ∈ termsInOrder r es ↔ a ∈ es := by
  rw [termsInOrder_eq]
  split
  · simp only [numbersFirst, List.mem_append, List.mem_filter, ← and_or_left]
    exact and_iff_left (by cases isPlainNumber a <;> simp)
  · exact mem_sortByRank

theorem rankParts_congr {r r' : Expr → List Rat} {n : Nat} (he : size e ≤ n)
    (h : ∀ a, size a < n → r a = r' a) : rankParts r e = rankParts r' e := by
  cases e with
  | add a b =>
    obtain ⟨n, rfl⟩ : ∃ m, n = m + 1 := ⟨n - 1, by simp only [size] at he; omega⟩
    refine termsInOrder_congr (n := n) ?_ fun a ha => h a (Nat.lt_succ_of_le ha)
    intro t ht
    rcases List.mem_append.mp ht with ht | ht
    all_goals
      have := size_le_of_mem_terms ht
      simp only [size] at he
      omega
  | mul a b =>
    refine sortByRank_congr fun t ht => h t ?_
    rcases List.mem_append.mp ht with ht | ht
    all_goals
      have := size_le_of_mem_factors ht
      simp only [size] at he
      omega
  | pow a b => grind [rankParts.eq_def]
  | _ => rfl

theorem size_lt_of_mem_rankParts {r : Expr → List Rat} (h : a ∈ rankParts r e) :
    size a < size e := by
  cases e with
  | add x y =>
    rcases List.mem_append.mp (mem_termsInOrder.mp h) with h | h
    all_goals
      have := size_le_of_mem_terms h
      simp only [size]
      omega
  | mul x y =>
    rcases List.mem_append.mp (mem_sortByRank.mp h) with h | h
    all_goals
      have := size_le_of_mem_factors h
      simp only [size]
      omega
  | _ => grind [rankParts.eq_def, size]

theorem size_rankPower (e : Expr) :
    size (rankPower e).1 ≤ size e ∧ ((rankPower e).2 = one ∨ size (rankPower e).2 < size e) := by
  grind [rankPower.eq_def, size]

/-- Depth beyond the size does not matter. -/
theorem rank_eq_rank {n m : Nat} (hn : size e < n) (hm : size e < m) : rank n e = rank m e := by
  induction n generalizing m e with
  | zero => omega
  | succ n ih =>
    obtain ⟨m, rfl⟩ : ∃ k, m = k + 1 := ⟨m - 1, by omega⟩
    rcases hsplit : splitTerm e with ⟨s, _ | r⟩
    · rw [rank_of_none hsplit, rank_of_none hsplit]
    · have hr := size_splitTerm hsplit
      have hpos := size_pos e
      obtain ⟨hbase, hexponent⟩ := size_rankPower r
      have hbelow : ∀ a, size a < size (rankPower r).1 → rank n a = rank m a :=
        fun a ha => ih (by omega) (by omega)
      have hparts := rankParts_congr le_rfl hbelow
      have hx : rank n (rankPower r).2 = rank m (rankPower r).2 := by
        rcases hexponent with hone | hx
        · obtain ⟨n, rfl⟩ : ∃ k, n = k + 1 := ⟨n - 1, by omega⟩
          obtain ⟨m, rfl⟩ : ∃ k, m = k + 1 := ⟨m - 1, by omega⟩
          rw [hone, rank_of_none rfl, rank_of_none rfl]
        · exact ih (by omega) (by omega)
      rw [rank_of_some hsplit, rank_of_some hsplit, rankHead, rankHead, hparts]
      congr 2
      refine List.flatMap_congr fun a ha => ?_
      rcases List.mem_append.mp ha with ha | ha
      · exact hbelow a (size_lt_of_mem_rankParts ha)
      · rw [List.mem_singleton.mp ha, hx]

theorem rankLt_rankOf_respell (e f : Expr) :
    rankLt (rankOf (respell ρ e)) (rankOf (respell ρ f)) = rankLt (rankOf e) (rankOf f) := by
  have hdeep (e f : Expr) : rankOf e = rank (size e + size f + 1) e :=
    rank_eq_rank (by omega) (by omega)
  have hdeep' (e f : Expr) : rankOf f = rank (size e + size f + 1) f :=
    rank_eq_rank (by omega) (by omega)
  rw [hdeep e f, hdeep' e f, hdeep (respell ρ e) (respell ρ f), hdeep' (respell ρ e) (respell ρ f),
    size_respell, size_respell, rankLt_rank_respell]

/-! ### The leading sign -/

theorem isTermNeg_respell (e : Expr) : isTermNeg (respell ρ e) = isTermNeg e := by simp [isTermNeg]

theorem leadsMinus_respell (e : Expr) : leadsMinus (respell ρ e) = leadsMinus e := by
  have hrank := rankLt_rankOf_respell (ρ := ρ) e (negate e)
  rw [respell_negate] at hrank
  have hterms := terms_respell (ρ := ρ) e
  cases e with
  | add a b =>
    simp only [respell] at hrank hterms
    simp [leadsMinus, respell, hrank, hterms, List.filter_map, Function.comp_def, isTermNeg_respell]
  | _ => exact isTermNeg_respell _

end Formulary.Expr
