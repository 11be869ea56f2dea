import Formulary.Proofs.Calc.Over.Remainder
import Formulary.Proofs.Calc.Respell.Trigonometry

/-! # Sizes, whole parts and extremes of respelled expressions

What is known of a size or a sign comes from values and natures, which have no spellings.
The members of an extreme are compared as they were.
-/

namespace Formulary.Expr

variable {ρ : Respelling} {a b e f x y m : Expr} {es fs : List Expr} {q : Rat} {g : Fn2}

/-! ### Sizes -/

theorem settleSigns_respell (e : Expr) :
    settleSigns (respell ρ e) = Prod.map id (respell ρ) (settleSigns e) := by
  induction e with
  | add a b =>
    have hleads := leadsMinus_respell (ρ := ρ) (.add a b)
    have hneg := respell_negate (ρ := ρ) (.add a b)
    simp only [respell] at hleads hneg
    simp only [settleSigns, respell, hleads]
    split <;> simp [hneg, respell]
  | mul a b iha ihb =>
    simp only [settleSigns, respell, iha, ihb, Prod.map, id]
    split <;> simp [respell]
  | pow a x iha ihx =>
    simp only [settleSigns, respell, iha, int?_respell]
    rcases settleSigns a with ⟨_ | _, b⟩ <;> cases int? x <;> simp [respell]
  | _ => rfl

@[simp, grind =] theorem isUnder_respell (f : Expr) : isUnder (respell ρ f) = isUnder f := by
  grind [isUnder.eq_def, isTermNeg_respell]

@[simp, grind =] theorem imaginarySign?_respell (a : Expr) :
    imaginarySign? (respell ρ a) = imaginarySign? a := by
  simp [imaginarySign?]

@[simp, grind =] theorem respell_imaginarySize (a : Expr) :
    respell ρ (imaginarySize a) = imaginarySize (respell ρ a) := by
  simp only [imaginarySize, imaginarySign?_respell]
  split <;> simp

/-- The size of a power where it is not a size of something unknown. -/
def knownPowerSize? (b x : Expr) : Option Expr :=
  if b = minusOne && (nature x).isWhole then some one
  else if (nature b).notNeg && (nature x).isReal then some (.pow b x)
  else if (nature b).notNeg || (nature b).isNeg then some (.fn .abs (.pow b x))
  else if (nature b).isReal && (nature x).isWhole then
    some (if (nature x).isEven then .pow b x else power (.fn .abs b) x)
  else none

theorem knownPowerSize?_respell (b x : Expr) :
    knownPowerSize? (respell ρ b) (respell ρ x) = (knownPowerSize? b x).map (respell ρ) := by
  simp only [knownPowerSize?, nature_respell, respell_eq_minusOne]
  split_ifs <;> simp [respell]

/-- What is known of the size of a member from its nature. -/
def knownSizeOr? (f : Expr) (other : Option Expr) : Option Expr :=
  if (nature f).notNeg && (nature f).isReal then some f
  else if (nature f).notPos && (nature f).isReal then some (negate f)
  else if isImaginary f then some (imaginarySize f)
  else if isConstant f then some (.fn .abs f)
  else other

theorem knownSizeOr?_respell (f : Expr) (other : Option Expr) :
    knownSizeOr? (respell ρ f) (other.map (respell ρ)) =
      (knownSizeOr? f other).map (respell ρ) := by
  simp only [knownSizeOr?, nature_respell, isImaginary_respell, isConstant_respell]
  split_ifs <;> simp [respell]

theorem knownSize?_respell (f : Expr) :
    knownSize? (respell ρ f) = (knownSize? f).map (respell ρ) := by
  have hother := knownSizeOr?_respell (ρ := ρ) f none
  cases f with
  | num s => rfl
  | pow b x =>
    by_cases hb : b = .const .e
    · subst hb
      simp only [knownSize?, respell, nature_respell]
      split <;> rfl
    · have hpow (b x : Expr) (hb : b ≠ .const .e) :
          knownSize? (.pow b x) = knownSizeOr? (.pow b x) (knownPowerSize? b x) := by
        unfold knownSize?
        split
        · simp_all
        · simp_all
        · simp_all
        · rfl
      rw [hpow b x hb, ← knownSizeOr?_respell, ← knownPowerSize?_respell]
      exact hpow _ _ fun h => hb (of_respell_eq_const h)
  | fn h x =>
    cases h with
    | abs => rfl
    | _ => exact hother
  | _ => exact hother

theorem respell_sizeOfSingle (a : Expr) :
    respell ρ (sizeOfSingle a) = sizeOfSingle (respell ρ a) := by
  have hknown := knownSize?_respell (ρ := ρ) a
  have hother : respell ρ ((knownSize? a).getD (.fn .abs a)) = (knownSize? (respell ρ a)).getD
      (.fn .abs (respell ρ a)) := by
    simp [hknown, respell]
  cases a with
  | num s => cases s <;> rfl
  | fn h x =>
    cases h with
    | abs => rfl
    | _ => exact hother
  | _ => exact hother

/-- A size that is known, or what is left under the bars. -/
def sizeOr (known : Option Expr) (f : Expr) : List Expr × List Expr :=
  match known with
  | some e => ([e], [])
  | none => ([], [f])

theorem sizeOr_respell (known : Option Expr) (f : Expr) :
    sizeOr (known.map (respell ρ)) (respell ρ f) = Prod.map (List.map (respell ρ))
      (List.map (respell ρ)) (sizeOr known f) := by
  cases known <;> rfl

theorem memberSize_respell (f : Expr) : memberSize (respell ρ f) = Prod.map (List.map (respell ρ))
    (List.map (respell ρ)) (memberSize f) := by
  have hother : sizeOr (knownSize? (respell ρ f)) (respell ρ f) =
      Prod.map (List.map (respell ρ)) (List.map (respell ρ)) (sizeOr (knownSize? f) f) := by
    rw [knownSize?_respell, sizeOr_respell]
  cases f with
  | pow b x =>
    simp only [respell] at hother
    simp only [memberSize, respell, int?_respell]
    rcases int? x with _ | n
    · exact hother
    · simp only
      split
      · rw [knownSize?_respell]
        cases knownSize? b <;> simp [respell]
      · exact hother
  | _ => exact hother

theorem respell_sizeOfMembers (fs : List Expr) :
    respell ρ (sizeOfMembers fs) = sizeOfMembers (fs.map (respell ρ)) := by
  have hknown : ((fs.map (respell ρ)).map memberSize).flatMap (·.1) =
      ((fs.map memberSize).flatMap (·.1)).map (respell ρ) := by
    simp [List.flatMap_map, List.map_flatMap, memberSize_respell]
  have hunknown : ((fs.map (respell ρ)).map memberSize).flatMap (·.2) =
      ((fs.map memberSize).flatMap (·.2)).map (respell ρ) := by
    simp [List.flatMap_map, List.map_flatMap, memberSize_respell]
  simp only [sizeOfMembers]
  rw [hknown, hunknown, List.isEmpty_map]
  split <;> simp [respell]

theorem respell_sizeOf (a : Expr) : respell ρ (sizeOf a) = sizeOf (respell ρ a) := by
  unfold sizeOf
  rw [factors_respell]
  rcases factors a with _ | ⟨f, _ | ⟨g, fs⟩⟩
  · exact respell_sizeOfMembers _
  · exact respell_sizeOfSingle f
  · exact respell_sizeOfMembers _

theorem isConstantOver_respell (fs : List Expr) :
    isConstantOver (fs.map (respell ρ)) = isConstantOver fs := by
  simp [isConstantOver, Function.comp_def]

/-- The size of an expression that is no number. -/
def absOther (a : Expr) : Expr :=
  match sign? a with
  | some s => if s < 0 then negate a else a
  | none =>
    let (flips, e) := settleSigns a
    let fs := factors e
    if isConstantOver fs then
      let below := product ((fs.filter isUnder).map fun f => power f minusOne)
      let top := product (fs.filter fun f => !isUnder f)
      quotient (sizeOf top) (sizeOf below)
    else if flips && fs.length = 1 then sizeOfMembers fs
    else sizeOf e

theorem respell_absOther (a : Expr) : respell ρ (absOther a) = absOther (respell ρ a) := by
  rw [absOther, absOther, sign?_respell]
  rcases sign? a with _ | s
  · simp only [settleSigns_respell]
    rcases settleSigns a with ⟨flips, e⟩
    have hbelow : ((factors (respell ρ e)).filter isUnder).map (fun f => power f minusOne) =
        (((factors e).filter isUnder).map fun f => power f minusOne).map (respell ρ) := by
      simp [filter_respell _ isUnder_respell]
    have htop : (factors (respell ρ e)).filter (fun f => !isUnder f) =
        ((factors e).filter fun f => !isUnder f).map (respell ρ) := by
      rw [factors_respell, filter_respell _ fun f => congrArg not (isUnder_respell f)]
    simp only [Prod.map, id, hbelow, htop, ← respell_product, ← respell_sizeOf]
    simp only [factors_respell, isConstantOver_respell, List.length_map, ← respell_sizeOfMembers]
    split_ifs <;> simp
  · simp only
    split
    · exact respell_negate a
    · rfl

@[simp, grind =] theorem respell_abs (a : Expr) : respell ρ (abs a) = abs (respell ρ a) := by
  have hother := respell_absOther (ρ := ρ) a
  cases a with
  | num s => exact respell_of_closed (over_abs over_num)
  | failed f => rfl
  | interval => rfl
  | _ => exact hother

/-! ### Signs -/

theorem memberSign?_respell (f : Expr) :
    memberSign? (respell ρ f) = (memberSign? f).map (respell ρ) := by
  simp only [memberSign?, nature_respell, imaginarySign?_respell]
  split_ifs
  · rfl
  · rfl
  · cases imaginarySign? f <;> simp

/-- The sign of the members without a known one. -/
def signOfRest (fs : List Expr) : Expr :=
  match fs with
  | [f@(.fn .sign _)] => f
  | [] => one
  | fs => .fn .sign (mulChain fs)

theorem respell_signOfRest (fs : List Expr) :
    respell ρ (signOfRest fs) = signOfRest (fs.map (respell ρ)) := by
  rcases fs with _ | ⟨f, _ | ⟨f', fs⟩⟩
  · rfl
  · cases f with
    | fn g x => cases g <;> rfl
    | _ => rfl
  · simp [signOfRest, respell]

/-- The sign of an expression with these factors. -/
def signOfFactors (a : Expr) (fs : List Expr) : Expr :=
  match fs with
  | [.fn .sign _] => a
  | [_] => .fn .sign a
  | fs =>
    let rest := fs.filter fun f => (memberSign? f).isNone
    if rest.length = fs.length then .fn .sign a
    else product [product (fs.filterMap memberSign?), signOfRest rest]

theorem respell_signOfFactors (a : Expr) (fs : List Expr) :
    respell ρ (signOfFactors a fs) = signOfFactors (respell ρ a) (fs.map (respell ρ)) := by
  have hmany (fs : List Expr) :
      respell ρ (let rest := fs.filter fun f => (memberSign? f).isNone
        if rest.length = fs.length then .fn .sign a
        else product [product (fs.filterMap memberSign?), signOfRest rest]) =
      let rest := (fs.map (respell ρ)).filter fun f => (memberSign? f).isNone
      if rest.length = (fs.map (respell ρ)).length then .fn .sign (respell ρ a)
      else product [product ((fs.map (respell ρ)).filterMap memberSign?), signOfRest rest] := by
    have hrest := filter_respell (ρ := ρ) fs (p := fun f => (memberSign? f).isNone)
      fun f => by simp [memberSign?_respell]
    have hknown : (fs.map (respell ρ)).filterMap memberSign? =
        (fs.filterMap memberSign?).map (respell ρ) := by
      simp [List.filterMap_map, List.map_filterMap, memberSign?_respell]
    simp only [hrest, hknown, List.length_map]
    split <;> simp [respell, respell_signOfRest]
  rcases fs with _ | ⟨f, _ | ⟨f', fs⟩⟩
  · exact hmany []
  · cases f with
    | fn g x => cases g <;> rfl
    | _ => rfl
  · simpa [signOfFactors] using hmany (f :: f' :: fs)

/-- The sign of an expression that is no number. -/
def signOther (a : Expr) : Expr :=
  match sign? a, imaginarySign? a with
  | some s, _ => ofInt s
  | none, some s => timesScalar (.ofInt s) (.const .i)
  | none, none =>
    if (nature a).isPos then one
    else if (nature a).isNeg then minusOne
    else signOfFactors a (factors a)

theorem respell_signOther (a : Expr) : respell ρ (signOther a) = signOther (respell ρ a) := by
  rw [signOther, signOther, sign?_respell, imaginarySign?_respell, nature_respell, factors_respell,
    ← respell_signOfFactors]
  split
  · rfl
  · simp
  · split_ifs <;> rfl

@[simp, grind =] theorem respell_sign (a : Expr) : respell ρ (sign a) = sign (respell ρ a) := by
  have hother := respell_signOther (ρ := ρ) a
  cases a with
  | num s => exact respell_of_closed (over_sign over_num)
  | failed f => rfl
  | interval => rfl
  | _ => exact hother

/-! ### Whole parts -/

theorem isFloored_respell (e : Expr) : isFloored (respell ρ e) = isFloored e := by
  grind [isFloored.eq_def]

theorem isWholePart_respell (e : Expr) : isWholePart (respell ρ e) = isWholePart e := by
  grind [isWholePart.eq_def, isFloored_respell]

theorem respell_wholeScalar? {s : Scalar} : (wholeScalar? s).map (respell ρ) = wholeScalar? s :=
  map_respell_of_closed over_wholeScalar?

/-- What a term that is no number adds to the whole part outside. -/
def wholeTermOther? (t : Expr) : Option Expr :=
  if (nature t).isWhole then some t
  else
    match splitTerm t with
    | (s, some (.const .i)) => (wholeScalar? s).map imaginary
    | _ => none

theorem wholeTermOther?_respell (t : Expr) :
    wholeTermOther? (respell ρ t) = (wholeTermOther? t).map (respell ρ) := by
  rw [wholeTermOther?, wholeTermOther?, nature_respell, splitTerm_respell]
  split
  · rfl
  · rcases splitTerm t with ⟨s, _ | r⟩
    · rfl
    · cases r with
      | const c =>
        have hscalar := respell_wholeScalar? (ρ := ρ) (s := s)
        cases c with
        | i => cases hs : wholeScalar? s <;> simp_all
        | _ => rfl
      | _ => rfl

theorem wholeTerm?_respell (t : Expr) :
    wholeTerm? (respell ρ t) = (wholeTerm? t).map (respell ρ) := by
  have hother := wholeTermOther?_respell (ρ := ρ) t
  cases t with
  | num s => exact respell_wholeScalar?.symm
  | _ => exact hother

theorem respell_wholeOfTerms {f : Fn} {ofConstant : Expr → Expr}
    (hconstant : ∀ e, respell ρ (ofConstant e) = ofConstant (respell ρ e)) (ts : List Expr) :
    respell ρ (wholeOfTerms f ofConstant ts) = wholeOfTerms f ofConstant (ts.map (respell ρ)) := by
  have hrest := filter_respell (ρ := ρ) ts (p := fun t => (wholeTerm? t).isNone)
    fun t => by simp [wholeTerm?_respell]
  have hwhole :
      (ts.map (respell ρ)).filterMap wholeTerm? = (ts.filterMap wholeTerm?).map (respell ρ) := by
    simp [List.filterMap_map, List.map_filterMap, wholeTerm?_respell]
  simp only [wholeOfTerms, hrest, hwhole, List.isEmpty_map, List.all_map, Function.comp_def,
    isConstant_respell,
    ← respell_sum, isFloored_respell]
  split_ifs <;> simp [hconstant, respell]

theorem respell_floorConstant {z : Complex} :
    respell ρ (floorConstant z a) = floorConstant z (respell ρ a) := by
  unfold floorConstant
  split <;> simp

theorem respell_floorOfConstant (a : Expr) :
    respell ρ (floorOfConstant a) = floorOfConstant (respell ρ a) := by
  rw [floorOfConstant, floorOfConstant, value?_respell]
  cases value? a <;> simp [respell_floorConstant, respell]

@[simp, grind =] theorem respell_floor (a : Expr) : respell ρ (floor a) = floor (respell ρ a) := by
  have hother : respell ρ (if isWholePart a || (nature a).isWhole then a
      else wholeOfTerms .floor floorOfConstant (terms a)) =
      if isWholePart (respell ρ a) || (nature (respell ρ a)).isWhole then respell ρ a
      else wholeOfTerms .floor floorOfConstant (terms (respell ρ a)) := by
    rw [isWholePart_respell, nature_respell, terms_respell,
      ← respell_wholeOfTerms respell_floorOfConstant]
    split <;> rfl
  cases a with
  | num s => rfl
  | failed f => rfl
  | interval => rfl
  | _ => exact hother

@[simp, grind =] theorem respell_ceil (a : Expr) : respell ρ (ceil a) = ceil (respell ρ a) := by
  have hconstant (c : Expr) : respell ρ (negate (floorOfConstant (negate c))) =
      negate (floorOfConstant (negate (respell ρ c))) := by
    simp [respell_floorOfConstant]
  have hother : respell ρ (if isWholePart a || (nature a).isWhole then a
      else wholeOfTerms .ceil (fun c => negate (floorOfConstant (negate c))) (terms a)) =
      if isWholePart (respell ρ a) || (nature (respell ρ a)).isWhole then respell ρ a
      else wholeOfTerms .ceil (fun c => negate (floorOfConstant (negate c)))
        (terms (respell ρ a)) := by
    rw [isWholePart_respell, nature_respell, terms_respell, ← respell_wholeOfTerms hconstant]
    split <;> rfl
  cases a with
  | num s => exact respell_of_closed (over_ceil over_num)
  | failed f => rfl
  | interval => rfl
  | _ => exact hother

@[simp, grind =] theorem respell_nearest (a : Expr) :
    respell ρ (nearest a) = nearest (respell ρ a) := by
  simp [nearest]

/-! ### Factorials -/

@[simp, grind =] theorem respell_factorial (a : Expr) :
    respell ρ (factorial a) = factorial (respell ρ a) := by
  cases a with
  | num s => exact respell_of_closed (over_factorial over_num)
  | _ => rfl

@[simp, grind =] theorem respell_doubleFactorial (a : Expr) :
    respell ρ (doubleFactorial a) = doubleFactorial (respell ρ a) := by
  cases a with
  | num s => exact respell_of_closed (over_doubleFactorial over_num)
  | _ => rfl

/-! ### Extremes -/

@[simp] theorem contains_respell : (es.map (respell ρ)).contains (respell ρ a) = es.contains a := by
  simp [List.contains_eq_mem]

@[simp] theorem bne_respell : (respell ρ a != respell ρ b) = (a != b) := by
  simp [bne, beq_eq_decide]

@[simp] theorem extremeMembers_respell (g : Fn2) (e : Expr) :
    extremeMembers g (respell ρ e) = (extremeMembers g e).map (respell ρ) := by
  induction e with
  | fn2 f a b iha ihb =>
    simp only [respell, extremeMembers, iha, ihb]
    split <;> simp [respell]
  | _ => rfl

@[simp] theorem isExtreme_respell (g : Fn2) (e : Expr) :
    isExtreme g (respell ρ e) = isExtreme g e := by
  cases e <;> rfl

@[simp] theorem respell_extremeChain (g : Fn2) (es : List Expr) :
    respell ρ (extremeChain g es) = extremeChain g (es.map (respell ρ)) := by
  have hconstants := filter_respell (ρ := ρ) es isConstant_respell
  have hothers := filter_respell (ρ := ρ) es (p := not ∘ isConstant) (by simp)
  simp only [extremeChain, List.partition_eq_filter_filter, hconstants, hothers, inOrder_respell]
  rw [respell_chain (f := .fn2 g) (fun _ _ => rfl) rfl, List.map_append]

@[simp] theorem isComparable_respell (e : Expr) : isComparable (respell ρ e) = isComparable e := by
  grind [isComparable.eq_def]

@[simp] theorem reaches?_respell (g : Fn2) (a b : Expr) :
    reaches? g (respell ρ a) (respell ρ b) = reaches? g a b := by
  have hnature : nature (difference (respell ρ a) (respell ρ b)) = nature (difference a b) := by
    rw [← respell_difference, nature_respell]
  grind [reaches?.eq_def]

/-- The number that a member gives as a bound. -/
def bound? (g : Fn2) (e : Expr) : Option Expr :=
  match e with
  | .fn2 h a _ => if g = h && isConstant a then some a else none
  | e => if isConstant e then some e else none

theorem bound?_respell (g : Fn2) (e : Expr) :
    bound? g (respell ρ e) = (bound? g e).map (respell ρ) := by
  grind [bound?.eq_def]

/-- The farthest of some bounds. -/
def farthestBound? (g : Fn2) (es : List Expr) : Option Expr :=
  match es with
  | [] => none
  | c :: cs => some (cs.foldl (fun b e => if reaches? g b e = some false then e else b) c)

theorem boundOf?_eq : boundOf? g es = farthestBound? g (es.filterMap (bound? g)) := rfl

theorem farthestBound?_respell (g : Fn2) (es : List Expr) :
    farthestBound? g (es.map (respell ρ)) = (farthestBound? g es).map (respell ρ) := by
  cases es with
  | nil => rfl
  | cons c cs =>
    refine congrArg some (foldl_map_comm (fun b e => ?_) c)
    rw [reaches?_respell]
    split <;> rfl

theorem boundOf?_respell (g : Fn2) (es : List Expr) :
    boundOf? g (es.map (respell ρ)) = (boundOf? g es).map (respell ρ) := by
  rw [boundOf?_eq, boundOf?_eq, ← farthestBound?_respell, List.filterMap_map, List.map_filterMap]
  simp [bound?_respell]

/-- Does a member of the other kind matter beside a bound? -/
def isWithin (g : Fn2) (bound e : Expr) : Bool :=
  match e with
  | .fn2 h a _ => !(h = opposite g && isConstant a && sign? (difference a bound) ==
      some (if g = .max then -1 else 1))
  | _ => true

theorem isWithin_respell (g : Fn2) (bound e : Expr) :
    isWithin g (respell ρ bound) (respell ρ e) = isWithin g bound e := by
  cases e <;> simp [isWithin, respell, ← respell_difference]

theorem dropBounded_respell (g : Fn2) (es : List Expr) :
    dropBounded g (es.map (respell ρ)) = (dropBounded g es).map (respell ρ) := by
  have hdrop (es : List Expr) : dropBounded g es = if !es.any isConstant then es else
      (boundOf? g es).elim es fun bound => es.filter (isWithin g bound) := by
    unfold dropBounded
    cases boundOf? g es <;> rfl
  simp only [hdrop, boundOf?_respell, List.any_map, Function.comp_def, isConstant_respell]
  split
  · rfl
  · cases boundOf? g es with
    | none => rfl
    | some bound => simp [List.filter_map, Function.comp_def, isWithin_respell]

theorem absorb_respell (g : Fn2) (m : Expr) (n : Nat) (e : Expr) :
    absorb g (respell ρ m) n (respell ρ e) = respell ρ (absorb g m n e) := by
  induction n generalizing e with
  | zero => rfl
  | succ n ih =>
    cases e with
    | fn2 h a b =>
      have hmembers := extremeMembers_respell (ρ := ρ) h (.fn2 h a b)
      simp only [respell] at hmembers
      have hother := filter_respell (ρ := ρ) (extremeMembers h (.fn2 h a b)) (p := (· != m))
      simp only [absorb, respell, hmembers, contains_respell, List.map_map, Function.comp_def, ih,
        List.filter_map, bne_respell]
      split_ifs <;> simp [respell, Function.comp_def]
    | _ => rfl

theorem absorbAll_respell (g : Fn2) (n : Nat) (es : List Expr) :
    absorbAll g n (es.map (respell ρ)) = (absorbAll g n es).map (respell ρ) := by
  induction n generalizing es with
  | zero => rfl
  | succ n ih =>
    cases es with
    | nil => rfl
    | cons e es =>
      simp [absorbAll, ← ih, absorb_respell, Function.comp_def]

/-- What extremes of the other kind share, brought out of them. -/
def outside (others : List (List Expr)) : List Expr :=
  match others with
  | [] => []
  | s :: ss => s.filter fun e => ss.all fun t => t.contains e

theorem outside_respell (others : List (List Expr)) :
    outside (others.map (List.map (respell ρ))) = (outside others).map (respell ρ) := by
  cases others with
  | nil => rfl
  | cons s ss => simp [outside, List.filter_map, Function.comp_def]

theorem bringOut_eq : bringOut g es =
    let others := (es.filter (isExtreme (opposite g))).map (extremeMembers (opposite g))
    let shared := outside others
    if shared.isEmpty then es
    else
      let left := others.map fun t => t.filter fun e => !shared.contains e
      let inner := if left.any List.isEmpty then []
        else [extremeChain g (left.map (extremeChain (opposite g)))]
      es.filter (not ∘ isExtreme (opposite g)) ++
        [extremeChain (opposite g) (shared ++ inner)] := by
  simp only [bringOut, List.partition_eq_filter_filter]
  split
  · rename_i h
    simp [h, outside]
  · rename_i h
    simp [h, outside]

theorem bringOut_respell (g : Fn2) (es : List Expr) :
    bringOut g (es.map (respell ρ)) = (bringOut g es).map (respell ρ) := by
  have hothers :
      ((es.map (respell ρ)).filter (isExtreme (opposite g))).map (extremeMembers (opposite g)) =
      ((es.filter (isExtreme (opposite g))).map (extremeMembers (opposite g))).map
        (List.map (respell ρ)) := by
    simp [filter_respell, Function.comp_def]
  have hrest := filter_respell (ρ := ρ) es (p := not ∘ isExtreme (opposite g)) (by simp)
  simp only [bringOut_eq, hothers, outside_respell, hrest, List.isEmpty_map]
  split
  · rfl
  · have hleft (shared : List Expr) (others : List (List Expr)) :
        (others.map (List.map (respell ρ))).map
        (fun t => t.filter fun e => !(shared.map (respell ρ)).contains e) =
        (others.map fun t => t.filter fun e => !shared.contains e).map (List.map (respell ρ)) := by
      simp [Function.comp_def, List.filter_map]
    simp only [hleft, List.any_map, Function.comp_def, List.isEmpty_map]
    split <;> simp [Function.comp_def]

theorem keepFarthest_respell (g : Fn2) (kept : List Expr) (e : Expr) :
    keepFarthest g (kept.map (respell ρ)) (respell ρ e) =
      (keepFarthest g kept e).map (respell ρ) := by
  have hjudged :
      (kept.map (respell ρ)).map (fun k =>
      (k, if k = respell ρ e then some true else reaches? g (respell ρ e) k)) =
      (kept.map fun k => (k, if k = e then some true else reaches? g e k)).map
        (Prod.map (respell ρ) id) := by
    simp [Function.comp_def]
  simp only [keepFarthest, hjudged, List.all_map, List.any_map, List.filter_map, Function.comp_def,
    Prod.map, id]
  split_ifs <;> simp [Function.comp_def]

theorem respell_farthest (g : Fn2) (es : List Expr) :
    respell ρ (farthest g es) = farthest g (es.map (respell ρ)) := by
  have hmembers : sortByRank rankOf (es.map (respell ρ)).eraseDups =
      (sortByRank rankOf es.eraseDups).map (respell ρ) := by
    rw [eraseDups_map_respell, sortByRank_respell fun a _ b _ => rankLt_rankOf_respell a b]
  have hkept (es : List Expr) : (es.map (respell ρ)).foldl (keepFarthest g) [] =
      (es.foldl (keepFarthest g) []).map (respell ρ) :=
    foldl_map_comm (fun kept e => keepFarthest_respell g kept e) []
  simp only [farthest, hmembers, List.length_map, dropBounded_respell, absorbAll_respell,
    bringOut_respell]
  split <;> simp [hkept]

theorem decisive?_respell (g : Fn2) (es : List Expr) :
    decisive? g (es.map (respell ρ)) = (decisive? g es).map (respell ρ) := by
  have hstrongest (e : Expr) : respell ρ e = strongest g ↔ e = strongest g := respell_eq_iff rfl
  induction es with
  | nil => rfl
  | cons e es ih =>
    simp only [decisive?, List.map_cons, List.findSome?_cons, isComparable_respell, hstrongest]
      at ih ⊢
    split_ifs
    · rfl
    · rfl
    · exact ih

@[simp, grind =] theorem respell_extreme (g : Fn2) (es : List Expr) :
    respell ρ (extreme g es) = extreme g (es.map (respell ρ)) := by
  have hweakest (e : Expr) :
      (respell ρ e != weakest g) = (e != weakest g) := bne_respell (b := weakest g)
  rw [extreme, extreme, firstFault?_respell, decisive?_respell]
  cases firstFault? es with
  | some f => rfl
  | none =>
    cases decisive? g es with
    | some e => rfl
    | none =>
      simp [respell_farthest, List.flatMap_map, List.map_flatMap, List.filter_flatMap,
        List.filter_map, Function.comp_def, hweakest]

end Formulary.Expr
