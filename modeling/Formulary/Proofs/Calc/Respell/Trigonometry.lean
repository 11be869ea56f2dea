import Formulary.Proofs.Calc.Over.Trigonometry
import Formulary.Proofs.Calc.Respell.Product

/-! # Circular and hyperbolic functions of respelled expressions

An angle is taken apart into turns and a rest, which are those of the respelled angle. The
functions, their inverses and logarithms go by rules that look at members in their order,
and at values.
-/

namespace Formulary.Expr

variable {ρ : Respelling} {a b e f x y : Expr} {es : List Expr} {q : Rat} {g : Fn}

/-! ### Turns -/

@[simp, grind =] theorem respell_piTimes :
    respell ρ (piTimes q) = piTimes q := respell_of_closed over_piTimes

theorem without?_respell (e : Expr) (es : List Expr) :
    without? (respell ρ e) (es.map (respell ρ)) = (without? e es).map (List.map (respell ρ)) := by
  induction es with
  | nil => rfl
  | cons x es ih =>
    simp only [List.map_cons, without?, respell_inj, ih]
    split <;> simp [Function.comp_def]

theorem filter_isNumber_respell (es : List Expr) :
    (es.map (respell ρ)).filter isNumber = es.filter isNumber := by
  induction es with
  | nil => rfl
  | cons e es ih => cases e <;> simp [respell, isNumber, List.filter_cons, ih]

theorem belowHalf?_respell (e : Expr) :
    belowHalf? (respell ρ e) = (belowHalf? e).map (respell ρ) := by
  have hrest := filter_respell (ρ := ρ) (terms e) (p := not ∘ isNumber) (by simp)
  have hall (es : List Expr) : (es.map (respell ρ)).all (fun t => (nature t).isWhole) =
      es.all fun t => (nature t).isWhole := by
    simp [Function.comp_def]
  simp only [belowHalf?, List.partition_eq_filter_filter, terms_respell]
  rw [filter_isNumber_respell, hrest, hall, List.isEmpty_map]
  split
  · split <;> simp
  · rfl

/-- A turn with its expressions respelled. -/
def Turn.respell (ρ : Respelling) : Turn → Turn
  | .half q => .half q
  | .whole x => .whole (Expr.respell ρ x)
  | .wholeAndHalf x => .wholeAndHalf (Expr.respell ρ x)
  | .scaled a => .scaled (Expr.respell ρ a)
  | .free => .free

theorem turnOfMultiple_respell (a : Expr) (q : Rat) (es : List Expr) :
    turnOfMultiple (respell ρ a) q (es.map (respell ρ)) = (turnOfMultiple a q es).respell ρ := by
  cases es with
  | nil => rfl
  | cons x xs =>
    have hmultiple : product [ofRat q, mulChain ((x :: xs).map (respell ρ))] =
        respell ρ (product [ofRat q, mulChain (x :: xs)]) := by simp
    simp only [turnOfMultiple, List.map_cons] at hmultiple ⊢
    rw [hmultiple, belowHalf?_respell]
    generalize product [ofRat q, mulChain (x :: xs)] = m
    rcases hsplit : splitTerm m with ⟨s, _ | r⟩
    · simp [hsplit, Turn.respell]
    · cases s with
      | exact q =>
        simp only [splitTerm_respell, hsplit, Option.map_some, nature_respell]
        split_ifs
        · rcases belowHalf? m with _ | y <;> simp [Turn.respell]
        all_goals simp [Turn.respell]
      | _ => simp [hsplit, Turn.respell]

theorem turn_respell (a : Expr) : turn (respell ρ a) = (turn a).respell ρ := by
  have hpi (r : Expr) : without? pi ((factors r).map (respell ρ)) =
      (without? pi (factors r)).map (List.map (respell ρ)) := without?_respell pi (factors r)
  rcases hsplit : splitTerm a with ⟨s, _ | r⟩
  · simp only [turn, splitTerm_respell, hsplit, Option.map_none]
    split <;> simp_all [Turn.respell]
  · simp only [turn, splitTerm_respell, hsplit, Option.map_some, factors_respell, hpi]
    rcases without? pi (factors r) with _ | ⟨_ | ⟨x, xs⟩⟩
    · rfl
    · cases exactCoefficient? s with
      | none => rfl
      | some q => exact turnOfMultiple_respell a q []
    · cases exactCoefficient? s with
      | none => rfl
      | some q => exact turnOfMultiple_respell a q (x :: xs)

theorem halfTurn?_respell (t : Expr) : halfTurn? (respell ρ t) = (halfTurn? t).map (respell ρ) := by
  have hpi (r : Expr) : without? pi ((factors r).map (respell ρ)) =
      (without? pi (factors r)).map (List.map (respell ρ)) := without?_respell pi (factors r)
  rcases hsplit : splitTerm t with ⟨s, _ | r⟩
  · simp [halfTurn?, hsplit]
  · cases s with
    | exact q =>
      simp only [halfTurn?, splitTerm_respell, hsplit, Option.map_some, factors_respell, hpi]
      rcases without? pi (factors r) with _ | ⟨_ | ⟨x, xs⟩⟩
      · rfl
      · rfl
      · have hchain :
            mulChain (respell ρ x :: xs.map (respell ρ)) = respell ρ (mulChain (x :: xs)) := by
          simp
        simp only [Option.map_some, List.map_cons, hchain, nature_respell]
        split <;> simp
    | _ => simp [halfTurn?, hsplit]

/-- A peeled sum with its parts respelled. -/
def Peeled.respell (ρ : Respelling) (p : Peeled) : Peeled :=
  ⟨Expr.respell ρ p.rest, Expr.respell ρ p.turns, p.quarters⟩

theorem peelTurns?_respell (a : Expr) :
    peelTurns? (respell ρ a) = (peelTurns? a).map (Peeled.respell ρ) := by
  have hturns : (terms (respell ρ a)).filterMap halfTurn? =
      ((terms a).filterMap halfTurn?).map (respell ρ) := by
    simp [List.filterMap_map, List.map_filterMap, halfTurn?_respell]
  have hrest : (terms (respell ρ a)).filter (fun t => (halfTurn? t).isNone) =
      ((terms a).filter fun t => (halfTurn? t).isNone).map (respell ρ) := by
    rw [terms_respell]
    exact filter_respell _ (by simp [halfTurn?_respell])
  have hmultiples (es : List Expr) : sum ((es.map (respell ρ)).filter (not ∘ isNumber)) =
      respell ρ (sum (es.filter (not ∘ isNumber))) := by
    rw [filter_respell _ (p := not ∘ isNumber) (by simp), respell_sum]
  simp only [peelTurns?, isSum_respell, List.partition_eq_filter_filter, hturns, hrest,
    filter_isNumber_respell, hmultiples,
    nature_respell, respell_eq_zero]
  split_ifs <;> simp [Peeled.respell]

@[simp, grind =] theorem respell_reciprocal (a : Expr) :
    respell ρ (reciprocal a) = reciprocal (respell ρ a) := by
  simp [reciprocal]

@[simp, grind =] theorem respell_circularAt (f : Fn) :
    respell ρ (circularAt f q) = circularAt f q := respell_of_closed over_circularAt

/-! ### Logarithms -/

@[simp, grind =] theorem respell_halfPi : respell ρ halfPi = halfPi := respell_of_closed over_halfPi

@[simp, grind =] theorem respell_logFraction : respell ρ (logFraction q) = logFraction q :=
  respell_of_closed over_logFraction

theorem imaginaryTerms?_respell (a : Expr) :
    imaginaryTerms? (respell ρ a) = (imaginaryTerms? a).map (List.map (respell ρ)) := by
  have hunit (t : Expr) : without? (.const .i) ((factors t).map (respell ρ)) =
      (without? (.const .i) (factors t)).map (List.map (respell ρ)) :=
        without?_respell (.const .i) _
  simp only [imaginaryTerms?, terms_respell]
  induction terms a with
  | nil => rfl
  | cons t ts ih =>
    simp only [List.map_cons, List.mapM_cons, ih, factors_respell, hunit]
    rcases without? (.const .i) (factors t) with _ | fs
    · rfl
    · rcases List.mapM (fun t => (without? (.const .i) (factors t)).map fun fs => product fs)
        ts with _ | xs
      · rfl
      · simp

@[simp, grind =] theorem imaginaryFactor?_respell (a : Expr) :
    imaginaryFactor? (respell ρ a) = (imaginaryFactor? a).map (respell ρ) := by
  simp only [imaginaryFactor?, imaginaryTerms?_respell]
  rcases imaginaryTerms? a with _ | ts
  · rfl
  · simp only [Option.map_some, Option.bind_eq_bind, Option.bind_some, ← respell_sum,
      mentions_respell]
    split <;> rfl

@[simp, grind =] theorem imaginaryPart?_respell (a : Expr) :
    imaginaryPart? (respell ρ a) = imaginaryPart? a := by
  rcases hsplit : splitTerm a with ⟨s, _ | r⟩
  · simp [imaginaryPart?, hsplit]
  · cases s <;> simp [imaginaryPart?, hsplit]

@[simp, grind =] theorem withinPeriod?_respell (period a : Expr) :
    withinPeriod? (respell ρ period) (respell ρ a) = (withinPeriod? period a).map (respell ρ) := by
  simp only [withinPeriod?, realValue?_respell]
  rcases realValue? a with _ | x
  · rfl
  · rcases realValue? period with _ | p
    · rfl
    · simp

@[simp, grind =] theorem isAbove_respell (a b : Expr) :
    isAbove (respell ρ a) (respell ρ b) = isAbove a b := by
  simp [isAbove, ← respell_difference]

@[simp, grind =] theorem logOfExp?_respell (t : Expr) :
    logOfExp? (respell ρ t) = (logOfExp? t).map (respell ρ) := by
  have hrotation : ((terms t).map (respell ρ)).filter (fun u => mentions .i u) =
      ((terms t).filter fun u => mentions .i u).map (respell ρ) := filter_respell _ (by simp)
  have hgrowth : ((terms t).map (respell ρ)).filter (not ∘ fun u => mentions .i u) =
      ((terms t).filter (not ∘ fun u => mentions .i u)).map (respell ρ) :=
        filter_respell _ (by simp)
  have hperiod (a : Expr) : withinPeriod? (piTimes 2) (respell ρ a) =
      (withinPeriod? (piTimes 2) a).map (respell ρ) := by
    simpa using withinPeriod?_respell (ρ := ρ) (piTimes 2) a
  have habove (a : Expr) : isAbove (respell ρ a) pi = isAbove a pi := isAbove_respell a pi
  have hall (es : List Expr) : (es.map (respell ρ)).all (fun u => (realValue? u).isSome) =
      es.all fun u => (realValue? u).isSome := by
    simp [Function.comp_def]
  simp only [logOfExp?, List.partition_eq_filter_filter, terms_respell]
  rw [hrotation, hgrowth, hall, ← respell_sum, imaginaryFactor?_respell]
  rcases imaginaryFactor? (sum ((terms t).filter fun u => mentions .i u)) with _ | angle
  · rfl
  · simp only [Option.map_some, Option.bind_eq_bind, Option.bind_some, hperiod]
    rcases withinPeriod? (piTimes 2) angle with _ | turned
    · rfl
    · simp only [Option.map_some, Option.bind_some, habove]
      split_ifs <;> simp

/-- The logarithm of what is neither a number nor a power of `e`. -/
def logOther (a : Expr) : Expr :=
  match imaginaryPart? a with
  | some q =>
    if q < 0 then difference (logFraction (-q)) (imaginary halfPi)
    else sum [logFraction q, imaginary halfPi]
  | none => if sign? a = some (-1) then sum [.fn .log (negate a), imaginary pi] else .fn .log a

@[simp, grind =] theorem respell_log (a : Expr) : respell ρ (log a) = log (respell ρ a) := by
  have hother (a : Expr) : respell ρ (logOther a) = logOther (respell ρ a) := by
    simp only [logOther, imaginaryPart?_respell, sign?_respell]
    split
    · split <;> simp
    · split <;> simp [respell]
  have hother := hother a
  cases a with
  | num s => exact respell_of_closed (over_log over_num)
  | const c => exact respell_of_closed (over_log over_const)
  | pow b t =>
    by_cases hb : b = .const .e
    · subst hb
      simp only [log, respell, nature_respell, isConstant_respell, logOfExp?_respell]
      split_ifs <;> simp [respell]
    · have hlog (b t : Expr) (hb : b ≠ .const .e) : log (.pow b t) = logOther (.pow b t) :=
        log.eq_9 _ (by simp) (by simp) (by simp) (by simp) (by simp) (by simp) (by simp)
          (by simpa using fun h => absurd h hb)
      rw [hlog b t hb, hother]
      exact (hlog _ _ fun h => hb (of_respell_eq_const h)).symm
  | failed f => rfl
  | interval => rfl
  | _ => exact hother

@[simp, grind =] theorem respell_logBase (a b : Expr) :
    respell ρ (logBase a b) = logBase (respell ρ a) (respell ρ b) := by
  by_cases h : ∃ s t, a = .num s ∧ b = .num t
  · obtain ⟨s, t, rfl, rfl⟩ := h
    exact respell_of_closed (over_logBase over_num over_num)
  · have hbase (a b : Expr) (h : ¬∃ s t, a = .num s ∧ b = .num t) : logBase a b =
        if b = one then if a = one then undefined else pole
        else if b = .const .e then log a else quotient (log a) (log b) := by
      unfold logBase
      split
      · rfl
      · split
        · rfl
        · dsimp only
          split
          · exact absurd ⟨_, _, rfl, rfl⟩ h
          · rfl
    have h' : ¬∃ s t, respell ρ a = .num s ∧ respell ρ b = .num t := by simpa using h
    rw [hbase a b h, hbase _ _ h']
    simp only [respell_eq_one, respell_eq_const]
    split_ifs <;> simp

/-! ### Legs -/

/-- Two expressions respelled. -/
abbrev respellPair (ρ : Respelling) : Expr × Expr → Expr × Expr := Prod.map (respell ρ) (respell ρ)

@[simp, grind =] theorem respell_square :
    respell ρ (square a) = square (respell ρ a) := by simp [square]

@[simp, grind =] theorem respell_inverseRoot :
    respell ρ (inverseRoot a) = inverseRoot (respell ρ a) := by simp [inverseRoot]

theorem circularLegs?_respell (a : Expr) :
    circularLegs? (respell ρ a) = (circularLegs? a).map (respellPair ρ) := by
  cases a with
  | fn g x => cases g <;> simp [circularLegs?, respell]
  | fn2 g y x => cases g <;> simp [circularLegs?, respell]
  | _ => rfl

theorem hyperbolicLegs?_respell (a : Expr) :
    hyperbolicLegs? (respell ρ a) = (hyperbolicLegs? a).map (respellPair ρ) := by
  cases a with
  | fn g x => cases g <;> simp [hyperbolicLegs?, respell]
  | _ => rfl

theorem ofLegs?_respell (g : Fn) (a : Expr) :
    ofLegs? g (respell ρ a) = (ofLegs? g a).map (respell ρ) := by
  simp only [ofLegs?, circularLegs?_respell, hyperbolicLegs?_respell]
  split
  · rcases hyperbolicLegs? a with _ | ⟨y, x⟩
    · rfl
    · cases g <;> simp
  · rcases circularLegs? a with _ | ⟨y, x⟩
    · rfl
    · cases g <;> simp

/-! ### The functions -/

theorem shiftWhole_respell (g : Fn) (turns : Expr) (quarters : Int) :
    shiftWhole g (respell ρ turns) quarters =
      Prod.map (respell ρ) id (shiftWhole g turns quarters) := by
  have hsign : respell ρ (power minusOne (sum [turns, ofInt (quarters / 2)])) =
      power minusOne (sum [respell ρ turns, ofInt (quarters / 2)]) := by simp
  cases g <;> grind [shiftWhole]

theorem respell_shiftImaginary {quarters : Int} :
    respell ρ (shiftImaginary g quarters).1 = (shiftImaginary g quarters).1 :=
  respell_of_closed over_shiftImaginary

theorem peelImaginary?_respell (a : Expr) :
    peelImaginary? (respell ρ a) = (peelImaginary? a).map (Prod.map (respell ρ) id) := by
  have hturns :
      ((terms a).map (respell ρ)).findSome? halfTurns? = (terms a).findSome? halfTurns? := by
    simp [List.findSome?_map, Function.comp_def, halfTurns?_respell]
  simp only [peelImaginary?, isSum_respell, terms_respell, hturns]
  split
  · rfl
  · rcases (terms a).findSome? halfTurns? with _ | q
    · rfl
    · simp only [Option.bind_eq_bind, Option.bind_some]
      split
      · rfl
      · simp [piI]

theorem respell_turned : respell ρ (turned g).1 = (turned g).1 := respell_of_closed over_turned

@[simp, grind =] theorem respell_withParity :
    respell ρ (withParity g e) = withParity g (respell ρ e) := by
  unfold withParity
  split <;> simp

/-- A circular or hyperbolic function of what is no number. -/
def waveOther (go : Fn → Expr → Expr) (f : Fn) (a : Expr) : Option Expr :=
  match imaginaryFactor? a with
  | some x =>
    let (factor, g) := turned f
    some (product [factor, go g x])
  | none =>
    if leadsMinus a then some (withParity f (go f (negate a)))
    else if isHyperbolic f then
      match peelImaginary? a with
      | some (x, quarters) =>
        let (factor, g) := shiftImaginary f quarters
        some (product [factor, go g x])
      | none => ofLegs? f a
    else
      match turn a with
      | .half q =>
        let e := circularAt f q
        if e = .fn f a then none else some e
      | .whole x =>
        some (match f with
          | .cos => power minusOne x
          | .cot => pole
          | _ => zero)
      | .wholeAndHalf x =>
        match f with
        | .sin => some (power minusOne x)
        | .cos => some zero
        | f =>
          let b := product [sum [x, half], pi]
          if b = a then none else some (go f b)
      | .scaled b => if b = a then none else some (go f b)
      | .free =>
        match peelTurns? a with
        | some ⟨x, turns, quarters⟩ =>
          if turns = zero then
            let (flips, g) := shift (quarters % 4).toNat (false, f)
            some (if flips then negate (go g x) else go g x)
          else
            let (factor, g) := shiftWhole f turns quarters
            some (product [factor, go g x])
        | none => ofLegs? f a

theorem waveOther_respell (go : Fn → Expr → Expr)
    (hgo : ∀ g x, go g (respell ρ x) = respell ρ (go g x)) (g : Fn) (a : Expr) :
    waveOther go g (respell ρ a) = (waveOther go g a).map (respell ρ) := by
  simp only [waveOther, imaginaryFactor?_respell, leadsMinus_respell, peelImaginary?_respell,
    turn_respell,
    peelTurns?_respell, ofLegs?_respell]
  rcases imaginaryFactor? a with _ | x
  · simp only [Option.map_none]
    split
    · simp [hgo, ← respell_negate]
    · split
      · rcases peelImaginary? a with _ | ⟨x, quarters⟩
        · rfl
        · simp [hgo, respell_shiftImaginary]
      · rcases turn a with q | x | x | b | _
        · have hcircular : circularAt g q = .fn g (respell ρ a) ↔ circularAt g q = .fn g a := by
            have h := respell_inj (ρ := ρ) (a := circularAt g q) (b := .fn g a)
            rwa [respell_circularAt, respell] at h
          simp only [Turn.respell, hcircular]
          split <;> simp
        · cases g <;> simp [Turn.respell]
        · have hangle : product [sum [respell ρ x, half], pi] =
              respell ρ (product [sum [x, half], pi]) := by simp
          have hscaled (b : Expr) :
              (if respell ρ b = respell ρ a then none else some (go g (respell ρ b))) =
              (if b = a then none else some (go g b)).map (respell ρ) := by
            simp only [respell_inj, hgo]
            split <;> rfl
          have hscaled := hscaled (product [sum [x, half], pi])
          rw [← hangle] at hscaled
          cases g with
          | sin => simp [Turn.respell]
          | cos => rfl
          | _ => exact hscaled
        · simp only [Turn.respell, respell_inj, hgo]
          split <;> rfl
        · rcases peelTurns? a with _ | ⟨x, turns, quarters⟩
          · rfl
          · simp only [Turn.respell, Option.map_some, Peeled.respell, hgo, respell_eq_zero,
              shiftWhole_respell]
            split
            · split <;> simp
            · simp
  · simp [hgo, respell_turned]

theorem wave?_respell (n : Nat) (g : Fn) (a : Expr) :
    wave? n g (respell ρ a) = (wave? n g a).map (respell ρ) := by
  induction n generalizing g a with
  | zero => rfl
  | succ n ih =>
    have hother := waveOther_respell (ρ := ρ) (fun g x => (wave? n g x).getD (.fn g x))
      (fun g x => by simp [ih, respell]) g a
    cases a with
    | num s => exact (map_respell_of_closed (over_wave? over_num)).symm
    | const c => exact (map_respell_of_closed (over_wave? over_const)).symm
    | failed f => rfl
    | interval => rfl
    | _ => exact hother

@[simp, grind =] theorem respell_wave : respell ρ (wave g a) = wave g (respell ρ a) := by
  simp [wave, wave?_respell, respell]

/-- The inverse of what is neither a cosine nor a sine. -/
def inverseOther (t : Expr) : Expr :=
  match negate t with
  | .fn .cos x => negate (.fn .sec x)
  | .fn .sin x => negate (.fn .csc x)
  | _ => reciprocal t

theorem respell_inverseOther : respell ρ (inverseOther a) = inverseOther (respell ρ a) := by
  simp only [inverseOther, ← respell_negate]
  generalize negate a = m
  cases m with
  | fn g x => cases g <;> simp [respell]
  | _ => simp [respell]

@[simp, grind =] theorem respell_inverseOf : respell ρ (inverseOf a) = inverseOf (respell ρ a) := by
  have hother := respell_inverseOther (ρ := ρ) (a := a)
  cases a with
  | fn g x => cases g <;> first | rfl | exact hother
  | _ => exact hother

/-- A secant or a cosecant of what is no number. -/
def inverseArgument (f : Fn) (a : Expr) : Expr :=
  match turn a with
  | .half q => circularAt f q
  | _ => ((wave? ruleLimit (if f = .sec then Fn.cos else Fn.sin) a).map inverseOf).getD (.fn f a)

theorem respell_inverseArgument :
    respell ρ (inverseArgument g a) = inverseArgument g (respell ρ a) := by
  rw [inverseArgument, inverseArgument, turn_respell, wave?_respell]
  rcases turn a <;> simp [Turn.respell, respell, Function.comp_def]

@[simp, grind =] theorem respell_inverseWave :
    respell ρ (inverseWave g a) = inverseWave g (respell ρ a) := by
  have hother : respell ρ (if leadsMinus a then withParity g (inverseArgument g (negate a))
      else inverseArgument g a) =
      if leadsMinus (respell ρ a) then withParity g (inverseArgument g (negate (respell ρ a)))
      else inverseArgument g (respell ρ a) := by
    rw [leadsMinus_respell]
    split <;> simp [respell_inverseArgument]
  cases a with
  | num s => exact respell_of_closed (over_inverseWave over_num)
  | const c => exact respell_of_closed (over_inverseWave over_const)
  | failed f => rfl
  | interval => rfl
  | _ => exact hother

/-! ### Inverse functions -/

/-- An angle beyond a limit is turned over. -/
theorem respell_turnOver {c d : Expr} (hc : respell ρ c = c) (hd : respell ρ d = d) :
    (if isAbove (respell ρ a) c then difference d (respell ρ a) else respell ρ a) =
      respell ρ (if isAbove a c then difference d a else a) := by
  have habove := isAbove_respell (ρ := ρ) a c
  rw [hc] at habove
  rw [habove]
  split <;> simp [hd]

theorem respell_turnBack {c d : Expr} (hc : respell ρ c = c) (hd : respell ρ d = d) :
    (if isAbove (respell ρ a) c then difference (respell ρ a) d else respell ρ a) =
      respell ρ (if isAbove a c then difference a d else a) := by
  have habove := isAbove_respell (ρ := ρ) a c
  rw [hc] at habove
  rw [habove]
  split <;> simp [hd]

theorem angleOfSine?_respell (a : Expr) :
    angleOfSine? (respell ρ a) = (angleOfSine? a).map (respell ρ) := by
  have hperiod := withinPeriod?_respell (ρ := ρ) (piTimes 2) a
  rw [respell_piTimes] at hperiod
  have hbelow (a : Expr) :
      (if isAbove (negate halfPi) (respell ρ a) then difference (negate pi) (respell ρ a)
      else respell ρ a) =
      respell ρ (if isAbove (negate halfPi) a then difference (negate pi) a else a) := by
    have habove := isAbove_respell (ρ := ρ) (negate halfPi) a
    rw [respell_negate, respell_halfPi] at habove
    rw [habove]
    split <;> simp
  simp only [angleOfSine?, hperiod]
  rcases withinPeriod? (piTimes 2) a with _ | t
  · rfl
  · simp only [Option.map_some, Option.bind_eq_bind, Option.bind_some,
      respell_turnOver respell_pi respell_pi, respell_turnOver respell_halfPi respell_pi,
      hbelow]
    rfl

theorem angleOfCosine?_respell (a : Expr) :
    angleOfCosine? (respell ρ a) = (angleOfCosine? a).map (respell ρ) := by
  have hperiod := withinPeriod?_respell (ρ := ρ) (piTimes 2) a
  rw [respell_piTimes] at hperiod
  simp only [angleOfCosine?, hperiod]
  rcases withinPeriod? (piTimes 2) a with _ | t
  · rfl
  · exact congrArg some (respell_turnOver respell_pi respell_piTimes)

theorem angleOfTangent?_respell (a : Expr) :
    angleOfTangent? (respell ρ a) = (angleOfTangent? a).map (respell ρ) := by
  have hperiod := withinPeriod?_respell (ρ := ρ) pi a
  rw [respell_pi] at hperiod
  simp only [angleOfTangent?, hperiod]
  rcases withinPeriod? pi a with _ | t
  · rfl
  · exact congrArg some (respell_turnBack respell_halfPi respell_pi)

theorem angleOfCotangent?_respell (a : Expr) :
    angleOfCotangent? (respell ρ a) = (angleOfCotangent? a).map (respell ρ) := by
  simp only [angleOfCotangent?, angleOfTangent?_respell]
  rcases angleOfTangent? a with _ | t
  · rfl
  · have hdifference : difference halfPi (respell ρ t) = respell ρ (difference halfPi t) := by simp
    simp only [Option.map_some, Option.bind_eq_bind, Option.bind_some, hdifference,
      respell_turnBack respell_halfPi respell_pi]
    rfl

theorem undone?_respell (g : Fn) (a : Expr) :
    undone? g (respell ρ a) = (undone? g a).map (respell ρ) := by
  have hsine (θ : Expr) : (angleOfSine? (respell ρ θ)).map (difference halfPi) =
      ((angleOfSine? θ).map (difference halfPi)).map (respell ρ) := by
    simp [angleOfSine?_respell, Function.comp_def]
  have hcosine (θ : Expr) : (angleOfCosine? (respell ρ θ)).map (difference halfPi) =
      ((angleOfCosine? θ).map (difference halfPi)).map (respell ρ) := by
    simp [angleOfCosine?_respell, Function.comp_def]
  have hsum (θ : Expr) : (angleOfSine? (respell ρ θ)).map (fun t => sum [halfPi, t]) =
      ((angleOfSine? θ).map fun t => sum [halfPi, t]).map (respell ρ) := by
    simp [angleOfSine?_respell, Function.comp_def]
  have hpi (θ : Expr) : angleOfCosine? (difference pi (respell ρ θ)) =
      (angleOfCosine? (difference pi θ)).map (respell ρ) := by
    simp [← angleOfCosine?_respell]
  have hacosh (x : Expr) :
      (sign? (respell ρ x)).map (fun s => if s < 0 then negate (respell ρ x) else respell ρ x) =
      ((sign? x).map fun s => if s < 0 then negate x else x).map (respell ρ) := by
    rw [sign?_respell, Option.map_map]
    refine congrArg (Option.map · _) (funext fun s => ?_)
    grind
  have hmul (q : Rat) (x : Expr) : undone? g (.mul (.num (.exact q)) (respell ρ x)) =
      (undone? g (.mul (.num (.exact q)) x)).map (respell ρ) := by
    by_cases hq : q = -1
    · subst hq
      cases g with
      | acos =>
        cases x with
        | fn h θ => cases h <;> first | rfl | exact hpi θ | exact hsum θ
        | _ => rfl
      | _ => rfl
    · have hnone (y : Expr) : undone? g (.mul (.num (.exact q)) y) = none := by
        unfold undone?
        split <;> simp_all
      rw [hnone, hnone]
      rfl
  cases a with
  | fn h θ =>
    cases g with
    | asin => cases h <;> first | rfl | exact angleOfSine?_respell θ | exact hcosine θ
    | acos => cases h <;> first | rfl | exact angleOfCosine?_respell θ | exact hsine θ
    | atan =>
      cases h <;> first | rfl | exact angleOfTangent?_respell θ | exact angleOfCotangent?_respell θ
    | asinh =>
      cases h <;> first | rfl | (simp only [undone?, respell, realValue?_respell]; split <;> rfl)
    | atanh =>
      cases h <;> first | rfl | (simp only [undone?, respell, realValue?_respell]; split <;> rfl)
    | acosh => cases h <;> first | rfl | exact hacosh θ
    | _ => rfl
  | mul b x =>
    cases b with
    | num s =>
      cases s with
      | exact q => exact hmul q x
      | _ => cases g <;> rfl
    | _ => cases g <;> rfl
  | _ => cases g <;> rfl

theorem lookup_respell {known : List (Expr × Rat)} (h : ∀ p ∈ known, respell ρ p.1 = p.1)
    (a : Expr) :
    known.lookup (respell ρ a) = known.lookup a := by
  induction known with
  | nil => rfl
  | cons p known ih =>
    have hkey : (respell ρ a == p.1) = (a == p.1) := by
      simp [beq_eq_decide, respell_eq_iff (h p List.mem_cons_self)]
    rw [List.lookup_cons, List.lookup_cons, hkey, ih fun p hp => h p (List.mem_cons_of_mem _ hp)]

theorem respell_root {n : Int} : respell ρ (root n) = root n := respell_of_closed over_root

theorem respell_knownSines : ∀ p ∈ knownSines, respell ρ p.1 = p.1 := by
  simp [knownSines, scaledSum, twelfth, tenth, eighth, respell_root]

theorem respell_knownTangents : ∀ p ∈ knownTangents, respell ρ p.1 = p.1 := by
  simp [knownTangents, respell_root]

theorem respell_knownCosines : ∀ p ∈ knownCosines, respell ρ p.1 = p.1 := by
  simp [knownCosines, scaledSum, twelfth, eighth, respell_root]

theorem knownAngle?_respell (g : Fn) (a : Expr) :
    knownAngle? g (respell ρ a) = knownAngle? g a := by
  have hneg : negate (respell ρ a) = respell ρ (negate a) := (respell_negate a).symm
  cases g <;> simp only [knownAngle?, hneg, lookup_respell respell_knownSines,
    lookup_respell respell_knownTangents,
    lookup_respell respell_knownCosines]

/-- An inverse function of what is no number. -/
def inverseWaveOther (go : Fn → Expr → Expr) (f : Fn) (a : Expr) : Option Expr :=
  match a.int?.bind (inverseAtInt? f) with
  | some e => some e
  | none =>
    if isOdd f && leadsMinus a then some (negate (go f (negate a)))
    else match knownAngle? f a with
    | some e => some e
    | none =>
      match imaginaryFactor? a with
      | some x =>
        match inverseTurned? f with
        | some g => some (imaginary (go g x))
        | none => if f = .acos then some (difference halfPi (go .asin a)) else undone? f a
      | none => undone? f a

theorem inverseWaveOther_respell (go : Fn → Expr → Expr)
    (hgo : ∀ g x, go g (respell ρ x) = respell ρ (go g x)) (g : Fn) (a : Expr) :
    inverseWaveOther go g (respell ρ a) = (inverseWaveOther go g a).map (respell ρ) := by
  have hint : ∀ e ∈ (int? a).bind (inverseAtInt? g), respell ρ e = e := fun e he =>
    respell_of_closed ((Option.mem_bind_iff.mp he).elim fun n hn => over_inverseAtInt? e hn.2)
  have hknown : ∀ e ∈ knownAngle? g a, respell ρ e = e := fun e he =>
    respell_of_closed (over_knownAngle? e he)
  simp only [inverseWaveOther, int?_respell, leadsMinus_respell, knownAngle?_respell,
    imaginaryFactor?_respell, undone?_respell]
  rcases hi : (int? a).bind (inverseAtInt? g) with _ | e
  · simp only
    split
    · simp [hgo, ← respell_negate]
    · rcases hk : knownAngle? g a with _ | e
      · rcases imaginaryFactor? a with _ | x
        · rfl
        · rcases inverseTurned? g with _ | h
          · simp only [Option.map_some]
            split <;> simp [hgo]
          · simp [hgo]
      · simp [hknown e hk]
  · simp [hint e hi]

theorem inverseWave?_respell (n : Nat) (g : Fn) (a : Expr) :
    inverseWave? n g (respell ρ a) = (inverseWave? n g a).map (respell ρ) := by
  induction n generalizing g a with
  | zero => rfl
  | succ n ih =>
    have hother := inverseWaveOther_respell (ρ := ρ) (fun g x =>
      (inverseWave? n g x).getD (.fn g x))
      (fun g x => by simp [ih, respell]) g a
    cases a with
    | num s => exact (map_respell_of_closed (over_inverseWave? over_num)).symm
    | const c => exact (map_respell_of_closed (over_inverseWave? over_const)).symm
    | failed f => rfl
    | interval => rfl
    | _ => exact hother

@[simp, grind =] theorem respell_ofInverse :
    respell ρ (ofInverse g a) = ofInverse g (respell ρ a) := by
  simp [ofInverse, inverseWave?_respell, respell]

/-- The angle of a point whose first coordinate is not infinite. -/
def atan2Other (y x : Expr) : Expr :=
  let nx := nature x
  let ny := nature y
  if nx.isPos && ny.isReal then ofInverse .atan (quotient y x)
  else if nx.isNeg && ny.isNeg then difference (ofInverse .atan (quotient y x)) pi
  else if nx.isNeg && ny.notNeg then sum [ofInverse .atan (quotient y x), pi]
  else match sign? x, sign? y with
  | some _, some sy =>
    if sy = 0 then undefined else if sy < 0 then negate halfPi else halfPi
  | _, _ =>
    if x.isConstant && y.isConstant && !x.hasSingular && !y.hasSingular then
      negate (imaginary (log (quotient (sum [x, imaginary y])
        (sqrt (sum [power x (ofInt 2), power y (ofInt 2)])))))
    else .fn2 .atan2 y x

theorem respell_atan2Other (y x : Expr) :
    respell ρ (atan2Other y x) = atan2Other (respell ρ y) (respell ρ x) := by
  simp only [atan2Other, nature_respell, sign?_respell, isConstant_respell, hasSingular_respell]
  split
  · simp
  split
  · simp
  split
  · simp
  split
  · split_ifs <;> simp
  · split <;> simp [respell]

@[simp, grind =] theorem respell_atan2 (y x : Expr) :
    respell ρ (atan2 y x) = atan2 (respell ρ y) (respell ρ x) := by
  have hfault := firstFault?_respell (ρ := ρ) [y, x]
  have hother := respell_atan2Other (ρ := ρ) y x
  simp only [List.map_cons, List.map_nil] at hfault
  unfold atan2
  rw [hfault]
  split
  · rfl
  · cases x with
    | num s =>
      cases s with
      | infinite negative =>
        simp only [respell, sign?_respell]
        grind
      | _ => exact hother
    | _ => exact hother

end Formulary.Expr
