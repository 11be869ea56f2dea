import Formulary.Calc.Function
import Formulary.Proofs.Calc.Respell.Size
import Formulary.Proofs.Calc.Value

/-! # Remainders of respelled expressions

The generators of two polynomials keep their order respelled, so a common factor is found
as before. Dividend and divisor are reduced and divided by it; a step goes by the rules for
remainders of smaller expressions.
-/

namespace Formulary

namespace Expr

variable {ρ : Respelling} {a b e f x y m p q : Expr} {es fs gs : List Expr}

/-! ### Expressions as polynomials -/

/-- Powers of respelled generators. -/
abbrev respellMonomial (ρ : Respelling) : Monomial → Monomial := List.map (Prod.map (respell ρ) id)

abbrev respellExpansion (ρ : Respelling) : Expansion → Expansion :=
  List.map (Prod.map (respellMonomial ρ) id)

theorem timesGenerator_respell (m : Monomial) (p : Expr × Nat) :
    timesGenerator (respellMonomial ρ m) (Prod.map (respell ρ) id p) =
      respellMonomial ρ (timesGenerator m p) := by
  induction m with
  | nil => rfl
  | cons q m ih =>
    simp only [respellMonomial, List.map_cons, timesGenerator, Prod.map, respell_inj, id] at ih ⊢
    split
    · rfl
    · rw [ih]
      rfl

theorem timesMonomial_respell (m k : Monomial) :
    timesMonomial (respellMonomial ρ m) (respellMonomial ρ k) =
      respellMonomial ρ (timesMonomial m k) :=
  foldl_map_comm timesGenerator_respell m

theorem multiply_respell (f g : Expansion) :
    multiply (respellExpansion ρ f) (respellExpansion ρ g) = respellExpansion ρ (multiply f g) := by
  simp [multiply, List.flatMap_map, List.map_flatMap, Function.comp_def, timesMonomial_respell]

theorem raiseExpansion_respell (f : Expansion) (n : Nat) :
    raiseExpansion (respellExpansion ρ f) n = respellExpansion ρ (raiseExpansion f n) := by
  induction n with
  | zero => rfl
  | succ n ih => rw [raiseExpansion, raiseExpansion, ih, multiply_respell]

theorem ofGenerator_respell (g : Expr × Int) :
    ofGenerator (Prod.map (respell ρ) id g) = respellExpansion ρ (ofGenerator g) := by
  simp only [ofGenerator, Prod.map, id]
  split <;> simp [respell]

theorem expand?_respell (e : Expr) :
    expand? (respell ρ e) = (expand? e).map (respellExpansion ρ) := by
  induction e with
  | num s =>
    cases s with
    | rounded p x =>
      simp only [expand?, respell]
      split <;> rfl
    | _ => rfl
  | const c => cases c <;> rfl
  | add a b iha ihb =>
    simp only [expand?, respell, iha, ihb]
    cases expand? a <;> cases expand? b <;> simp
  | mul a b iha ihb =>
    simp only [expand?, respell, iha, ihb]
    cases expand? a <;> cases expand? b <;> simp [multiply_respell]
  | pow a x iha =>
    have hgenerator := generator_respell (ρ := ρ) (.pow a x)
    simp only [respell] at hgenerator
    simp only [expand?, respell, int?_respell, isSum_respell, iha, hgenerator, ofGenerator_respell]
    split
    · split
      · cases expand? a <;> simp [raiseExpansion_respell]
      · rfl
    · rfl
  | _ => rfl

theorem holdsRounded_respell (e : Expr) : holdsRounded (respell ρ e) = holdsRounded e := by
  induction e with
  | add a b iha ihb | mul a b iha ihb => simp [respell, holdsRounded, iha, ihb]
  | pow a b ih => simp [respell, holdsRounded, ih]
  | _ => rfl

theorem exponents_respell (gs : List Expr) (m : Monomial) :
    exponents (gs.map (respell ρ)) (respellMonomial ρ m) = exponents gs m := by
  simp only [exponents, List.map_map, Function.comp_def]
  refine List.map_congr_left fun g _ => ?_
  simp only [List.find?_map, Function.comp_def, Prod.map, beq_eq_decide, respell_inj]
  cases m.find? fun p => decide (p.1 = g) <;> rfl

theorem toPoly_respell (gs : List Expr) (f : Expansion) :
    toPoly (gs.map (respell ρ)) (respellExpansion ρ f) = toPoly gs f := by
  simp [toPoly, Function.comp_def, exponents_respell]

theorem respell_ofPolyTerm (gs : List Expr) (c : Scalar) (exps : List Nat) :
    respell ρ (ofPolyTerm gs c exps) = ofPolyTerm (gs.map (respell ρ)) c exps := by
  simp [ofPolyTerm, List.zip_map_left, Function.comp_def]

theorem respell_ofPoly (gs : List Expr) (areWhole areRounded : Bool) (f : Poly) :
    respell ρ (ofPoly gs areWhole areRounded f) =
      ofPoly (gs.map (respell ρ)) areWhole areRounded f := by
  simp [ofPoly, Function.comp_def, respell_ofPolyTerm]

@[simp, grind =] theorem respell_commonFactor (a b : Expr) :
    respell ρ (commonFactor a b) = commonFactor (respell ρ a) (respell ρ b) := by
  simp only [commonFactor, expand?_respell, holdsRounded_respell]
  rcases expand? a with _ | f
  · rfl
  · rcases expand? b with _ | g
    · rfl
    · have hgenerators : ((respellExpansion ρ (f ++ g)).flatMap fun t => t.1.map (·.1)) =
          ((f ++ g).flatMap fun t => t.1.map (·.1)).map (respell ρ) := by
        simp [List.flatMap_map, List.map_flatMap, Function.comp_def]
      simp only [Option.map_some, ← List.map_append, hgenerators, eraseDups_map_respell,
        sortByRank_respell fun a _ b _ => rankLt_rankOf_respell a b]
      simp only [List.isEmpty_map, List.length_map, toPoly_respell, ← respell_ofPoly, List.all_map,
        Function.comp_def]
      split <;> rfl

/-! ### What the terms of a sum share -/

/-- A factor as a base with a whole exponent. -/
def wholePower (f : Expr) : Expr × Int :=
  match f with
  | .pow b (.num (.exact q)) => if q.den = 1 then (b, q.num) else (f, 1)
  | f => (f, 1)

theorem wholePower_respell (f : Expr) :
    wholePower (respell ρ f) = Prod.map (respell ρ) id (wholePower f) := by
  cases f with
  | pow b x =>
    cases x with
    | num s =>
      cases s with
      | exact q =>
        simp only [wholePower, respell]
        split <;> rfl
      | _ => rfl
    | _ => rfl
  | _ => rfl

theorem termPowers_eq (t : Expr) :
    termPowers t = ((splitTerm t).2.elim [] factors).map wholePower := by
  unfold termPowers
  rcases splitTerm t with ⟨s, _ | r⟩ <;> rfl

theorem termPowers_respell (t : Expr) :
    termPowers (respell ρ t) = (termPowers t).map (Prod.map (respell ρ) id) := by
  rw [termPowers_eq, termPowers_eq, splitTerm_respell]
  cases (splitTerm t).2 <;> simp [Function.comp_def, wholePower_respell]

theorem powerIn_respell (b : Expr) (ps : List (Expr × Int)) :
    powerIn (respell ρ b) (ps.map (Prod.map (respell ρ) id)) = powerIn b ps := by
  induction ps with
  | nil => rfl
  | cons p ps ih =>
    obtain ⟨c, n⟩ := p
    rw [powerIn, powerIn] at ih ⊢
    simp only [List.map_cons, Prod.map, List.lookup_cons, beq_eq_decide, respell_inj]
    by_cases hb : b = c
    · simp [hb]
    · simp [hb, ih]

theorem sharedPower_respell (b : Expr) (ts : List (List (Expr × Int))) :
    sharedPower (respell ρ b) (ts.map (List.map (Prod.map (respell ρ) id))) = sharedPower b ts := by
  simp [sharedPower, Function.comp_def, powerIn_respell]

theorem sharedPowers_respell (ts : List Expr) :
    sharedPowers (ts.map (respell ρ)) = (sharedPowers ts).map (respell ρ) := by
  have hpowers : (ts.map (respell ρ)).map termPowers =
      (ts.map termPowers).map (List.map (Prod.map (respell ρ) id)) := by
    simp [Function.comp_def, termPowers_respell]
  simp only [sharedPowers, hpowers]
  rcases ts.map termPowers with _ | ⟨p, ps⟩
  · rfl
  · have hshared (b : Expr) := sharedPower_respell (ρ := ρ) b (p :: ps)
    simp only [List.map_cons] at hshared
    simp only [List.map_cons, List.filterMap_map, List.map_filterMap, Function.comp_def, Prod.map,
      hshared]
    refine List.filterMap_congr fun b _ => ?_
    split <;> simp

theorem sharedFraction_respell (ts : List Expr) :
    sharedFraction (ts.map (respell ρ)) = sharedFraction ts := by
  simp [sharedFraction, Function.comp_def]

theorem pullTerms_respell (e : Expr) :
    pullTerms (respell ρ e) = Prod.map id (List.map (respell ρ)) (pullTerms e) := by
  simp only [pullTerms, isSum_respell, terms_respell, sharedPowers_respell, sharedFraction_respell]
  split
  · rfl
  · simp [Function.comp_def]

theorem respell_keepCoefficient (q : Rat) (e : Expr) :
    respell ρ (keepCoefficient q e) = keepCoefficient q (respell ρ e) := by
  have hother := respell_timesScalar (ρ := ρ) (.exact q) e
  cases e with
  | add a b =>
    simp only [keepCoefficient, respell]
    split <;> rfl
  | _ => exact hother

@[simp, grind =] theorem respell_divideOut (e g : Expr) :
    respell ρ (divideOut e g) = divideOut (respell ρ e) (respell ρ g) := by
  have hpulled : (factors (product [respell ρ e, power (respell ρ g) minusOne])).map pullTerms =
      ((factors (product [e, power g minusOne])).map pullTerms).map
        (Prod.map id (List.map (respell ρ))) := by
    have hproduct : product [respell ρ e, power (respell ρ g) minusOne] =
        respell ρ (product [e, power g minusOne]) := by simp
    simp only [hproduct, factors_respell, List.map_map, Function.comp_def, pullTerms_respell]
  simp only [divideOut, hpulled, List.foldl_map, List.flatMap_map, Prod.map, id]
  simp [respell_keepCoefficient, List.map_flatMap]

/-! ### Remainders -/

@[simp] theorem roundedBits_respell (e : Expr) : roundedBits (respell ρ e) = roundedBits e := by
  induction e with
  | add a b iha ihb | mul a b iha ihb | pow a b iha ihb | fn2 g a b iha ihb | pair a b iha ihb =>
    simp [respell, roundedBits, iha, ihb]
  | fn g a ih | unknown name a ih => simp [respell, roundedBits, ih]
  | num s => cases s <;> rfl
  | _ => rfl

@[simp] theorem truncated?_respell (e : Expr) : truncated? (respell ρ e) = truncated? e := by
  have hother : ((realValue? (respell ρ e)).bind fun x =>
      if x.top > 2 * decisionBits then none else some (truncation (roundedBits (respell ρ e)) x)) =
      (realValue? e).bind fun x =>
        if x.top > 2 * decisionBits then none else some (truncation (roundedBits e) x) := by
    rw [realValue?_respell, roundedBits_respell]
  cases e with
  | num s => rfl
  | _ => exact hother

@[simp] theorem respell_withoutTimes (p q : Expr) (times : Int) :
    respell ρ (withoutTimes p q times) = withoutTimes (respell ρ p) (respell ρ q) times := by
  have hleft : difference (respell ρ p) (product [ofInt times, respell ρ q]) =
      respell ρ (difference p (product [ofInt times, q])) := by simp
  have hproduct (a b : Expr) :
      product [respell ρ a, respell ρ b] = respell ρ (product [a, b]) := by simp
  simp only [withoutTimes, hleft, hproduct, nature_respell]
  split <;> simp

@[simp] theorem isMod_respell (e : Expr) : isMod (respell ρ e) = isMod e := by
  grind [isMod.eq_def]

/-- A remainder of expressions that are not both numbers, where nothing hinders it. -/
def remainderOther (p q : Expr) : Option Expr :=
  if (nature (quotient p q)).isWhole then some zero
  else (truncated? (quotient p q)).map (withoutTimes p q)

theorem remainderOther_respell (p q : Expr) :
    remainderOther (respell ρ p) (respell ρ q) = (remainderOther p q).map (respell ρ) := by
  simp only [remainderOther, ← respell_quotient, nature_respell, truncated?_respell]
  split
  · rfl
  · cases truncated? (quotient p q) <;> simp

/-- The remainder of two numbers, or else of what they are. -/
def remainderPlain (p q : Expr) : Option Expr :=
  match p, q with
  | .num s, .num t => some (((s.mod? t).map Expr.num).getD (.fn2 .mod p q))
  | p, q => remainderOther p q

theorem remainderPlain_respell (p q : Expr) :
    remainderPlain (respell ρ p) (respell ρ q) = (remainderPlain p q).map (respell ρ) := by
  have hother := remainderOther_respell (ρ := ρ) p q
  cases p with
  | num s =>
    cases q with
    | num t =>
      cases h : s.mod? t <;> simp [remainderPlain, h, respell]
    | _ => exact hother
  | _ => exact hother

theorem remainderNow?_eq : remainderNow? p q =
    if q.scalar?.any Scalar.isZero then some (.failed .divisionByZero)
    else if p.hasSingular || q.hasSingular then some undefined
    else if p = zero || p = q || p = negate q || q = one && (nature p).isWhole then some zero
    else remainderPlain p q := rfl

theorem remainderNow?_respell (p q : Expr) :
    remainderNow? (respell ρ p) (respell ρ q) = (remainderNow? p q).map (respell ρ) := by
  simp only [remainderNow?_eq, scalar?_respell, hasSingular_respell, respell_eq_zero,
    respell_eq_one, respell_inj,
    ← respell_negate, nature_respell, remainderPlain_respell]
  split_ifs <;> rfl

@[simp] theorem countMods_respell (e : Expr) : countMods (respell ρ e) = countMods e := by
  induction e with
  | add a b iha ihb | mul a b iha ihb | pow a b iha ihb | fn2 g a b iha ihb | pair a b iha ihb =>
    simp [respell, countMods, iha, ihb]
  | fn g a ih | unknown name a ih => simp [respell, countMods, ih]
  | _ => rfl

section Steps

variable {mod : Expr → Expr → Expr}

/-- The divisor is the same in all remainders of a sum. -/
def dividesBy (q t : Expr) : Bool :=
  match t with
  | .fn2 .mod _ m => m == q
  | _ => false

theorem dividesBy_respell (q t : Expr) : dividesBy (respell ρ q) (respell ρ t) = dividesBy q t := by
  cases t with
  | fn2 g a m => cases g <;> simp [dividesBy, respell, beq_eq_decide]
  | _ => rfl

/-- The dividend of a remainder. -/
def dividend (t : Expr) : Expr :=
  match t with
  | .fn2 .mod a _ => a
  | t => t

theorem respell_dividend (t : Expr) : respell ρ (dividend t) = dividend (respell ρ t) := by
  cases t with
  | fn2 g a m => cases g <;> rfl
  | _ => rfl

/-- A sum with remainders by the same divisor. -/
def flattenedSum? (mod : Expr → Expr → Expr) (p q : Expr) : Option Expr :=
  let inner := (terms p).filter isMod
  if inner.isEmpty || !inner.all (dividesBy q) || !isSum p then none
  else some (mod (sum ((terms p).map dividend)) q)

/-- A dividend that is the negative of a remainder, or a sum with remainders. -/
def flattenedOther? (mod : Expr → Expr → Expr) (p negative q : Expr) : Option Expr :=
  match negative with
  | .fn2 .mod a m =>
    if mod m q = zero then some (mod (negate a) q)
    else if (nature (product [m, sum [q, m]])).notPos then some p
    else none
  | _ => flattenedSum? mod p q

theorem flattenedSum?_respell (hmod : ∀ a b, mod (respell ρ a) (respell ρ b) = respell ρ (mod a b))
    (p q : Expr) :
    flattenedSum? mod (respell ρ p) (respell ρ q) = (flattenedSum? mod p q).map (respell ρ) := by
  have hinner := filter_respell (ρ := ρ) (terms p) isMod_respell
  have hterms :
      ((terms p).map (respell ρ)).map dividend = ((terms p).map dividend).map (respell ρ) := by
    simp [Function.comp_def, respell_dividend]
  simp only [flattenedSum?, terms_respell, hinner, hterms, List.all_map, Function.comp_def,
    dividesBy_respell, List.isEmpty_map,
    isSum_respell, ← respell_sum, hmod]
  split <;> rfl

theorem flattenedOther?_respell (hmod : ∀ a b, mod (respell ρ a) (respell ρ b) =
    respell ρ (mod a b)) (p n q : Expr) :
    flattenedOther? mod (respell ρ p) (respell ρ n) (respell ρ q) = (flattenedOther? mod p n q).map
      (respell ρ) := by
  have hsum := flattenedSum?_respell hmod p q
  cases n with
  | fn2 g a m =>
    cases g with
    | mod =>
      have hproduct : product [respell ρ m, sum [respell ρ q, respell ρ m]] =
          respell ρ (product [m, sum [q, m]]) := by simp
      simp only [flattenedOther?, respell, hmod, respell_eq_zero, ← respell_negate, hproduct,
        nature_respell]
      split_ifs <;> rfl
    | _ => exact hsum
  | _ => exact hsum

theorem flattened?_eq (h : isMod p = false) :
    flattened? mod p q = flattenedOther? mod p (negate p) q := by
  unfold flattened?
  split
  · exact absurd h Bool.true_eq_false.mp
  · rename_i hnegate
    rw [hnegate]
    rfl
  · rename_i hnot
    unfold flattenedOther?
    split
    · exact (hnot _ _ ‹_›).elim
    · rfl

theorem flattened?_respell (hmod : ∀ a b, mod (respell ρ a) (respell ρ b) = respell ρ (mod a b))
    (p q : Expr) :
    flattened? mod (respell ρ p) (respell ρ q) = (flattened? mod p q).map (respell ρ) := by
  cases hp : isMod p with
  | false =>
    rw [flattened?_eq hp, flattened?_eq ((isMod_respell p).trans hp), ← respell_negate,
      flattenedOther?_respell hmod]
  | true =>
    obtain ⟨a, m, rfl⟩ : ∃ a m, p = .fn2 .mod a m := by
      unfold isMod at hp
      split at hp
      · exact ⟨_, _, rfl⟩
      · simp at hp
    have hproduct : product [respell ρ m, difference (respell ρ q) (respell ρ m)] =
        respell ρ (product [m, difference q m]) := by simp
    simp only [flattened?, respell, hmod, respell_eq_zero, hproduct, nature_respell]
    split_ifs <;> rfl

theorem respell_reduceTerms (hmod : ∀ a b, mod (respell ρ a) (respell ρ b) = respell ρ (mod a b))
    (p q : Expr) :
    respell ρ (reduceTerms mod p q) = reduceTerms mod (respell ρ p) (respell ρ q) := by
  have hreduced :
      ((terms p).map (respell ρ)).map (fun t => if countMods t < countMods (mod t (respell ρ q))
      then t else mod t (respell ρ q)) =
      ((terms p).map fun t => if countMods t < countMods (mod t q) then t else mod t q).map
        (respell ρ) := by
    rw [List.map_map, List.map_map]
    refine List.map_congr_left fun t _ => ?_
    simp only [Function.comp_apply, hmod, countMods_respell]
    split <;> rfl
  simp only [reduceTerms, terms_respell, hreduced, respell_injective.list_map.eq_iff]
  split <;> simp

theorem reduceRounded_respell (g p q : Expr) :
    reduceRounded (respell ρ g) (respell ρ p) (respell ρ q) =
      Prod.map (respell ρ) (Prod.map (respell ρ) (respell ρ)) (reduceRounded g p q) := by
  simp only [reduceRounded, splitTerm_respell]
  rcases splitTerm p with ⟨s, a⟩
  rcases splitTerm q with ⟨t, b⟩
  simp only
  split_ifs <;> simp

/-- A factor, a dividend and a divisor respelled. -/
abbrev respellTriple (ρ : Respelling) : Expr × Expr × Expr → Expr × Expr × Expr :=
  Prod.map (respell ρ) (Prod.map (respell ρ) (respell ρ))

/-- Dividend and divisor are turned where both lead with a minus. -/
def turnBoth (g p q : Expr) : Expr × Expr × Expr :=
  if leadsMinus p && leadsMinus q then (negate g, negate p, negate q) else (g, p, q)

theorem turnBoth_respell (g p q : Expr) :
    turnBoth (respell ρ g) (respell ρ p) (respell ρ q) = respellTriple ρ (turnBoth g p q) := by
  simp only [turnBoth, leadsMinus_respell, ← respell_negate]
  split <;> rfl

/-- What is left of dividend and divisor without their common factor, reduced. -/
def reduced (mod : Expr → Expr → Expr) (g a b : Expr) : Expr × Expr × Expr :=
  if isSum a then (g, reduceTerms mod a b, b) else reduceRounded g a b

theorem reduced_respell (hmod : ∀ a b, mod (respell ρ a) (respell ρ b) = respell ρ (mod a b))
    (g a b : Expr) :
    reduced mod (respell ρ g) (respell ρ a) (respell ρ b) =
      respellTriple ρ (reduced mod g a b) := by
  simp only [reduced, isSum_respell, ← respell_reduceTerms hmod, reduceRounded_respell]
  split <;> rfl

/-- The remainder of what is left, with the factor before it; nothing is left as it was unless
`again` holds. -/
def remainderOf (mod : Expr → Expr → Expr) (a b g p q : Expr) : Expr :=
  match remainderNow? p q with
  | some e => product [e, g]
  | none =>
    match splitTerm g with
    | (c, none) =>
      if isRoundedOne c then .fn2 .mod (product [p, g]) q
      else product [g, if (p, q) = (a, b) then .fn2 .mod p q else mod p q]
    | (c, some h) =>
      let p' := if isRoundedOne c then product [.num c, p] else p
      let g' := if isRoundedOne c then h else g
      product [g', if (p', q) = (a, b) then .fn2 .mod p' q else mod p' q]

theorem respell_again (hmod : ∀ a b, mod (respell ρ a) (respell ρ b) = respell ρ (mod a b))
    (a b p q : Expr) :
    (if (respell ρ p, respell ρ q) = (respell ρ a, respell ρ b) then .fn2 .mod (respell ρ p)
    (respell ρ q)
      else mod (respell ρ p) (respell ρ q)) =
      respell ρ (if (p, q) = (a, b) then .fn2 .mod p q else mod p q) := by
  simp only [Prod.mk.injEq, respell_inj, hmod]
  split <;> rfl

theorem respell_remainderOf (hmod : ∀ a b, mod (respell ρ a) (respell ρ b) = respell ρ (mod a b))
    (a b g p q : Expr) :
    respell ρ (remainderOf mod a b g p q) =
      remainderOf mod (respell ρ a) (respell ρ b) (respell ρ g) (respell ρ p) (respell ρ q) := by
  simp only [remainderOf, remainderNow?_respell, splitTerm_respell]
  rcases remainderNow? p q with _ | e
  · rcases splitTerm g with ⟨c, _ | h⟩
    · simp only [Option.map_none, respell_again hmod]
      split <;> simp [respell]
    · simp only [Option.map_none, Option.map_some]
      split
      · have hp : product [.num c, respell ρ p] = respell ρ (product [.num c, p]) := by simp
        rw [hp, respell_again hmod]
        simp
      · rw [respell_again hmod]
        simp
  · simp

/-- A remainder that is not known at once. -/
def modStep (mod : Expr → Expr → Expr) (p q : Expr) : Expr :=
  let g := commonFactor p q
  let plain := g = one || g.scalar?.any isRoundedOne
  let a := if plain then p else divideOut p g
  let b := if plain then q else divideOut q g
  let (g, p, q) := reduced mod g a b
  let (g, p, q) := turnBoth g p q
  remainderOf mod a b g p q

theorem respell_modStep (hmod : ∀ a b, mod (respell ρ a) (respell ρ b) = respell ρ (mod a b))
    (p q : Expr) :
    respell ρ (modStep mod p q) = modStep mod (respell ρ p) (respell ρ q) := by
  simp only [modStep, ← respell_commonFactor, respell_eq_one, scalar?_respell, ← respell_divideOut,
    ← apply_ite (respell ρ),
    reduced_respell hmod]
  generalize reduced mod _ _ _ = t
  obtain ⟨g, p, q⟩ := t
  simp only [Prod.map, turnBoth_respell]
  generalize turnBoth g p q = u
  obtain ⟨g, p, q⟩ := u
  exact respell_remainderOf hmod _ _ _ _ _

theorem respell_modIn (n : Nat) (p q : Expr) :
    respell ρ (modIn n p q) = modIn n (respell ρ p) (respell ρ q) := by
  induction n generalizing p q with
  | zero => rfl
  | succ n ih =>
    have hmod (a b : Expr) :
        modIn n (respell ρ a) (respell ρ b) = respell ρ (modIn n a b) := (ih a b).symm
    have hstep (p q : Expr) : modIn (n + 1) p q =
        ((remainderNow? p q).or (flattened? (modIn n) p q)).getD (modStep (modIn n) p q) := by
      rw [modIn]
      cases (remainderNow? p q).or (flattened? (modIn n) p q) <;> rfl
    rw [hstep, hstep, respell_getD, respell_modStep hmod, remainderNow?_respell,
      flattened?_respell hmod, Option.map_or]

end Steps

@[simp, grind =] theorem respell_mod (p q : Expr) :
    respell ρ (mod p q) = mod (respell ρ p) (respell ρ q) := by
  have hfault := firstFault?_respell (ρ := ρ) [p, q]
  simp only [List.map_cons, List.map_nil] at hfault
  rw [mod, mod, hfault]
  split
  · rfl
  · exact respell_modIn _ p q

/-! ### Functions -/

@[simp, grind =] theorem respell_apply (f : Fn) (a : Expr) :
    respell ρ (apply f a) = apply f (respell ρ a) := by
  cases f <;> simp [apply]

@[simp, grind =] theorem respell_apply2 (f : Fn2) (a b : Expr) :
    respell ρ (apply2 f a b) = apply2 f (respell ρ a) (respell ρ b) := by
  cases f <;> simp [apply2]

theorem respell_timesInto (n : Int) (s : Scalar) : respell ρ (timesInto n s) = timesInto n s :=
  respell_of_closed over_timesInto

@[simp, grind =] theorem respell_floorQuotient (a b : Expr) :
    respell ρ (floorQuotient a b) = floorQuotient (respell ρ a) (respell ρ b) := by
  have hother := respell_floor (ρ := ρ) (quotient a b)
  rw [respell_quotient] at hother
  unfold floorQuotient
  rw [int?_respell]
  cases int? a with
  | none => exact hother
  | some n =>
    cases b with
    | num s =>
      simp only [respell]
      split
      · rfl
      · exact respell_timesInto n s
    | _ => exact hother

end Expr

namespace Builtin

open Formulary.Expr

theorem call?_respell {ρ : Respelling} (b : Builtin) (args : List Expr) :
    call? b (args.map (respell ρ)) = (call? b args).map (respell ρ) := by
  cases b with
  | min | max => simp [call?]
  | plain f => rcases args with _ | ⟨x, _ | ⟨y, args⟩⟩ <;> simp [call?]
  | _ => rcases args with _ | ⟨x, _ | ⟨y, _ | ⟨z, _ | ⟨w, args⟩⟩⟩⟩ <;> simp [call?]

end Builtin

theorem respell_namedConstant? {ρ : Respelling} (name : Text) :
    (namedConstant? name).map (Expr.respell ρ) = namedConstant? name :=
  Expr.map_respell_of_closed fun _ he => Value.over_namedConstant? he

end Formulary
