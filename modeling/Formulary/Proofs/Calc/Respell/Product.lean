import Formulary.Calc.Power
import Formulary.Calc.Product
import Formulary.Proofs.Calc.Respell.Sum

/-! # Products and powers of respelled expressions

The members of a product become powers, which are collected, settled and joined. Each of
these passes gives respelled powers for respelled ones, and so does every rule for a power.
-/

namespace Formulary.Expr

variable {ρ : Respelling} {a b e f : Expr} {es : List Expr} {p : Power} {ps : List Power}

/-! ### Members as powers -/

/-- A power with its base and its exponent respelled. -/
def respellPower (ρ : Respelling) (p : Power) : Power := (respell ρ p.1, respell ρ p.2)

/-- A coefficient and powers, these respelled. -/
def respellPowers (ρ : Respelling) (r : Scalar × List Power) : Scalar × List Power :=
  (r.1, r.2.map (respellPower ρ))

@[grind inj] theorem respellPower_injective : Function.Injective (respellPower ρ) := by
  rintro ⟨b, x⟩ ⟨c, y⟩ h
  simpa [respellPower] using h

theorem isProduct_respell (e : Expr) : isProduct (respell ρ e) = isProduct e := by cases e <;> rfl

@[simp] theorem spreadFactors_respell (es : List Expr) :
    spreadFactors (es.map (respell ρ)) = (spreadFactors es).map (respell ρ) := by
  simp [spreadFactors, List.filter_map, List.flatMap_map, List.map_flatMap, Function.comp_def,
    isProduct_respell]

@[simp] theorem toPower_respell (e : Expr) :
    toPower (respell ρ e) = respellPower ρ (toPower e) := by
  grind [toPower.eq_def, respellPower]

@[simp] theorem respell_ofPower (p : Power) :
    respell ρ (ofPower p) = ofPower (respellPower ρ p) := by
  have hone : respell ρ p.2 = one ↔ p.2 = one := respell_injective.eq_iff' respell_one
  have hminus : respellPower ρ p = (minusOne, half) ↔ p = (minusOne, half) :=
    respellPower_injective.eq_iff' rfl
  simp only [ofPower, hminus]
  simp only [respellPower, hone]
  split_ifs <;> rfl

@[simp] theorem raise_respell (e : Expr) (n : Int) :
    raise (respell ρ e) n = (raise e n).map (respellPower ρ) := by
  induction e generalizing n with
  | mul a b iha ihb => simp [respell, raise, iha, ihb]
  | pow b x ihb =>
    simp only [respell, raise, ← respell_timesScalar, int?_respell]
    split
    · exact ihb _
    · rfl
  | const c => cases c <;> rfl
  | _ => rfl

@[simp] theorem areAlike_respell (p q : Power) :
   areAlike (respellPower ρ p) (respellPower ρ q) = areAlike p q := by
  simp [areAlike, respellPower, beq_eq_decide, (Option.map_injective respell_injective).eq_iff]

@[simp] theorem collectPower_respell (p : Power) (ps : List Power) :
    collectPower (respellPower ρ p) (ps.map (respellPower ρ)) =
      (collectPower p ps).map (respellPower ρ) := by
  induction ps with
  | nil => rfl
  | cons q ps ih =>
    simp only [List.map_cons, collectPower, areAlike_respell]
    split
    · simp [respellPower]
    · simp [ih]

@[simp] theorem gatherPowers_respell (acc : Scalar × List Power) (p : Power) :
    gatherPowers (respellPowers ρ acc) (respellPower ρ p) =
      respellPowers ρ (gatherPowers acc p) := by
  obtain ⟨b, x⟩ := p
  have hone : respell ρ x = one ↔ x = one := respell_injective.eq_iff' respell_one
  have hcollect := collectPower_respell (ρ := ρ) (b, x) acc.2
  cases b with
  | num s =>
    simp only [gatherPowers, respellPower, respell, respellPowers, hone] at hcollect ⊢
    split <;> simp [hcollect]
  | _ => exact Prod.ext rfl hcollect

theorem foldl_gatherPowers (s : Scalar) (ps : List Power) :
    (ps.map (respellPower ρ)).foldl gatherPowers (s, []) =
      respellPowers ρ (ps.foldl gatherPowers (s, [])) :=
  foldl_map_comm (g := respellPowers ρ) gatherPowers_respell (s, [])

theorem respellPowers_rootPowers (r : Scalar × List Radical.Root) :
    respellPowers ρ (rootPowers r) = rootPowers r := by
  simp [respellPowers, rootPowers, respellPower]

theorem respellPowers_fractionPower (q r : Rat) :
    respellPowers ρ (fractionPower q r) = fractionPower q r := by
  unfold fractionPower
  split
  · rfl
  · exact respellPowers_rootPowers _

/-! ### Powers of `e` and of zero -/

theorem isLog_respell (e : Expr) : isLog (respell ρ e) = isLog e := by
  grind [isLog.eq_def]

theorem logArgument?_respell (es : List Expr) :
    logArgument? (es.map (respell ρ)) = (logArgument? es).map (respell ρ) := by
  grind [logArgument?.eq_def, -List.map_map]

theorem powersOf_respell (a c : Expr) :
    powersOf (respell ρ a) (respell ρ c) = respellPowers ρ (powersOf a c) := by
  grind [powersOf.eq_def, respellPowers, respellPowers_fractionPower, raise_respell, respellPower]

theorem halfTurns?_respell (e : Expr) : halfTurns? (respell ρ e) = halfTurns? e := by
  have hpi :
      respell ρ (mulChain (inOrder [pi, .const .i])) = mulChain (inOrder [pi, .const .i]) := by
    simp [← inOrder_respell]
  have heq (r : Expr) : respell ρ r = mulChain (inOrder [pi, .const .i]) ↔
      r = mulChain (inOrder [pi, .const .i]) := respell_injective.eq_iff' hpi
  rw [halfTurns?, halfTurns?, splitTerm_respell]
  rcases splitTerm e with ⟨s, _ | r⟩
  · rfl
  · cases s with
    | exact q => simp [heq]
    | _ => rfl

theorem oddTurns?_respell (e : Expr) : oddTurns? (respell ρ e) = oddTurns? e := by
  have hpi (f : Expr) : (respell ρ f == pi) = (f == pi) := by
    simp [beq_eq_decide, respell_injective.eq_iff' respell_pi]
  have hi (f : Expr) : (respell ρ f == .const .i) = (f == .const .i) := by
    simp [beq_eq_decide, respell_injective.eq_iff' respell_const]
  simp [oddTurns?, List.partition_eq_filter_filter, List.filter_map, Function.comp_def, hpi, hi]

/-- What `e` to the power of a term is, where the term is no number with a power of its own. -/
def expFactors? (t : Expr) : Option (Scalar × List Power) :=
  match halfTurns? t, oddTurns? t with
  | some q, _ => some (rootPowers (Radical.ofPower (-1) q))
  | none, some odd => some (if odd then .minusOne else .one, [])
  | none, none =>
    let (logs, others) := (factors t).partition isLog
    match logArgument? logs with
    | some a =>
      if others.all fun o => (realValue? o).isSome then some (powersOf a (mulChain others))
      else none
    | none => none

theorem expFactors?_respell (e : Expr) :
    expFactors? (respell ρ e) = (expFactors? e).map (respellPowers ρ) := by
  have hlogs :
      (factors (respell ρ e)).filter isLog = ((factors e).filter isLog).map (respell ρ) := by
    simp [List.filter_map, Function.comp_def, isLog_respell]
  have hothers : (factors (respell ρ e)).filter (not ∘ isLog) =
      ((factors e).filter (not ∘ isLog)).map (respell ρ) := by
    simp [List.filter_map, Function.comp_def, isLog_respell]
  simp only [expFactors?, List.partition_eq_filter_filter]
  rw [halfTurns?_respell, oddTurns?_respell, hlogs, hothers, logArgument?_respell]
  rcases halfTurns? e with _ | q
  · rcases oddTurns? e with _ | odd
    · rcases logArgument? ((factors e).filter isLog) with _ | a
      · rfl
      · simp only [Option.map_some, List.all_map, Function.comp_def, realValue?_respell,
          ← respell_mulChain, powersOf_respell]
        split <;> rfl
    · rfl
  · simp [respellPowers_rootPowers]

theorem expTerm?_respell (e : Expr) :
    expTerm? (respell ρ e) = (expTerm? e).map (respellPowers ρ) := by
  cases e with
  | num s =>
    cases s with
    | exact q => exact expFactors?_respell (.num (.exact q))
    | _ => rfl
  | _ => exact expFactors?_respell _

theorem expPowers_respell (e : Expr) : expPowers (respell ρ e) = respellPowers ρ (expPowers e) := by
  have hzero (a : Expr) : respell ρ a = zero ↔ a = zero := respell_injective.eq_iff' respell_zero
  have hknown : (terms (respell ρ e)).filterMap expTerm? =
      ((terms e).filterMap expTerm?).map (respellPowers ρ) := by
    simp [List.filterMap_map, List.map_filterMap, expTerm?_respell]
  have hrest : (terms (respell ρ e)).filter (fun u => (expTerm? u).isNone) =
      ((terms e).filter fun u => (expTerm? u).isNone).map (respell ρ) := by
    simp [List.filter_map, Function.comp_def, expTerm?_respell]
  simp only [expPowers, hknown, hrest, ← respell_sum, hzero]
  split <;> simp [respellPowers, List.foldl_map, List.flatMap_map, List.map_flatMap, respellPower]

theorem zeroPower_respell (e : Expr) : zeroPower (respell ρ e) = respellPowers ρ (zeroPower e) := by
  grind [zeroPower.eq_def, respellPowers, respellPower]

/-! ### Settled powers -/

theorem sizePower_respell (a : Expr) (n : Int) :
    sizePower (respell ρ a) n = (sizePower a n).map (respellPower ρ) := by
  grind [sizePower.eq_def, respellPower]

theorem respellPowers_positivePower (s t : Scalar) :
    respellPowers ρ (positivePower s t) = positivePower s t := by
  unfold positivePower
  split
  · exact respellPowers_fractionPower _ _
  · split <;> rfl

theorem releaseGreatest?_respell (a b : Expr) : releaseGreatest? (respell ρ a) (respell ρ b) =
    (releaseGreatest? a b).map (respellPowers ρ) := by
  cases a with
  | add x y =>
    cases b with
    | num t =>
      have hterms := terms_respell (ρ := ρ) (.add x y)
      have hconstant := isConstant_respell (ρ := ρ) (.add x y)
      simp only [respell] at hterms hconstant
      have hone (o : Option Expr) : (o.map (respell ρ)).getD one = respell ρ (o.getD one) := by
        cases o <;> rfl
      simp only [releaseGreatest?, respell, hterms, hconstant, List.map_map, List.any_map,
        List.all_map, Function.comp_def, splitTerm_respell,
        hone, ← respell_timesScalar]
      split
      · rfl
      · simpa [respellPowers, respellPower, respell, Function.comp_def] using
          (congrArg Prod.snd (respellPowers_positivePower (ρ := ρ) _ t)).symm
    | _ => rfl
  | _ => rfl

theorem settlePower_respell (p : Power) :
    settlePower (respellPower ρ p) = respellPowers ρ (settlePower p) := by
  have hfixed {e c : Expr} (hc : respell ρ c = c) (h : e = c → False) : respell ρ e = c → False :=
    fun h' => h ((respell_injective.eq_iff' hc).mp h')
  obtain ⟨b, x⟩ := p
  rw [respellPower]
  -- The cases are those of `settlePower`, the last one for what has no special kind.
  by_cases hb : b = zero
  · subst hb
    exact zeroPower_respell x
  by_cases hx : x = zero
  · subst hx
    exact (settlePower.eq_2 _ (hfixed rfl hb)).trans
      (congrArg (respellPowers ρ) (settlePower.eq_2 _ hb).symm)
  by_cases hrat : ∃ q r, b = ofRat q ∧ x = ofRat r
  · obtain ⟨q, r, rfl, rfl⟩ := hrat
    have hsettle : settlePower (ofRat q, ofRat r) = fractionPower q r :=
      settlePower.eq_3 q r (fun h => hb (h ▸ rfl)) fun h => hx (h ▸ rfl)
    rw [respell_ofRat, respell_ofRat, hsettle, respellPowers_fractionPower]
  by_cases hminus : b = minusOne
  · subst hminus
    have hrat' (r : Rat) (h : x = .num (.exact r)) : False := hrat ⟨-1, r, rfl, h⟩
    have hsettle := settlePower.eq_4 x hx hrat'
    have hsettle' := settlePower.eq_4 (respell ρ x) (hfixed rfl hx) fun r h =>
      hrat' r (of_respell_eq_num h)
    rw [nature_respell] at hsettle'
    refine hsettle'.trans (.trans ?_ (congrArg (respellPowers ρ) hsettle.symm))
    split_ifs <;> rfl
  by_cases he : b = .const .e
  · subst he
    exact (settlePower.eq_5 _ (hfixed rfl hx)).trans
      ((expPowers_respell x).trans (congrArg _ (settlePower.eq_5 _ hx).symm))
  by_cases habs : ∃ a q, b = .fn .abs a ∧ x = ofRat q
  · obtain ⟨a, q, rfl, rfl⟩ := habs
    have hq (h : q = 0) : False := hx (h ▸ rfl)
    refine (settlePower.eq_6 _ _ hq).trans (.trans ?_ (congrArg _ (settlePower.eq_6 _ _ hq).symm))
    rw [nature_respell, sizePower_respell]
    split <;> rfl
  · have hrat' (q r : Rat) (hb : b = .num (.exact q)) (hx : x = .num (.exact r)) : False :=
      hrat ⟨q, r, hb, hx⟩
    have habs' (a : Expr) (q : Rat) (hb : b = .fn .abs a) (hx : x = .num (.exact q)) : False :=
      habs ⟨a, q, hb, hx⟩
    refine (settlePower.eq_7 _ _ (hfixed rfl hb) (hfixed rfl hx) ?_ (hfixed rfl hminus)
      (hfixed rfl he) ?_).trans
      (.trans ?_ (congrArg _ (settlePower.eq_7 _ _ hb hx hrat' hminus he habs').symm))
    · exact fun q r hb hx => hrat' q r (of_respell_eq_num hb) (of_respell_eq_num hx)
    · intro a q hb hx
      obtain ⟨a, rfl, -⟩ := of_respell_eq_fn hb
      exact habs' a q rfl (of_respell_eq_num hx)
    · rw [scalar?_respell, releaseGreatest?_respell, int?_respell, isProduct_respell]
      split
      · rfl
      · rcases releaseGreatest? b x with _ | r
        · rcases int? x with _ | n
          · rfl
          · simp only [Option.map_none, raise_respell]
            split <;> rfl
        · rfl

theorem normalPowers_respell (n : Nat) (acc : Scalar × List Power) :
   normalPowers n (respellPowers ρ acc) = respellPowers ρ (normalPowers n acc) := by
  induction n generalizing acc with
  | zero => rfl
  | succ n ih =>
    obtain ⟨s, ps⟩ := acc
    have hsettled : (ps.map (respellPower ρ)).map settlePower =
        (ps.map settlePower).map (respellPowers ρ) := by
      simp [Function.comp_def, settlePower_respell]
    have hpowers (ks : List (Scalar × List Power)) : (ks.map (respellPowers ρ)).flatMap (·.2) =
        (ks.flatMap (·.2)).map (respellPower ρ) := by
      simp [List.flatMap_map, List.map_flatMap, respellPowers]
    simp only [normalPowers, respellPowers] at hsettled hpowers ⊢
    rw [hsettled, hpowers, foldl_gatherPowers, ih, List.foldl_map]
    rfl

/-! ### The product -/

theorem besideCoefficient_respell (s : Scalar) (es : List Expr) :
   besideCoefficient s (es.map (respell ρ)) =
     ((besideCoefficient s es).1, (besideCoefficient s es).2.map (respell ρ)) := by
  unfold besideCoefficient
  split <;> simp [List.filter_map, Function.comp_def]

theorem joinPower_respell (p : Power) (ps : List Power) :
    joinPower (respellPower ρ p) (ps.map (respellPower ρ)) =
      (joinPower p ps).map (respellPower ρ) := by
  induction ps with
  | nil => rfl
  | cons q ps ih =>
    obtain ⟨b, x⟩ := p
    obtain ⟨c, y⟩ := q
    simp only [List.map_cons]
    cases c with
    | num s =>
      cases b with
      | num t =>
        simp only [joinPower, respellPower, respell, respell_inj, splitTerm_respell,
          Option.isSome_map] at ih ⊢
        rw [ih]
        split <;> rfl
      | _ => exact congrArg _ ih
    | _ => exact congrArg _ ih

theorem joinPowers_respell (ps : List Power) :
    joinPowers (ps.map (respellPower ρ)) = (joinPowers ps).map (respellPower ρ) := by
  have hone (p : Power) : ((respellPower ρ p).1 != one) = (p.1 != one) := by
    simp [respellPower, bne, beq_eq_decide, respell_injective.eq_iff' respell_one]
  have hjoin := foldl_map_comm (f := fun qs p => joinPower p qs) (k := respellPower ρ)
    (g := List.map (respellPower ρ)) (fun qs p => joinPower_respell p qs) [] (l := ps)
  simp only [joinPowers, List.map_nil] at hjoin ⊢
  rw [hjoin, List.filter_map]
  simp [Function.comp_def, hone]

theorem respell_buildProduct (s : Scalar) (ps : List Power) :
    respell ρ (buildProduct s ps) = buildProduct s (ps.map (respellPower ρ)) := by
  have hinterval (p : Power) : ((respellPower ρ p).1 == interval) = (p.1 == interval) := by
    simp [respellPower, beq_eq_decide, respell_injective.eq_iff' respell_interval]
  have hpowers : (ps.map (respellPower ρ)).map ofPower = (ps.map ofPower).map (respell ρ) := by
    simp [Function.comp_def]
  simp only [buildProduct, List.any_map, Function.comp_def, hinterval, hpowers, inOrder_respell,
    besideCoefficient_respell]
  generalize besideCoefficient s (inOrder (ps.map ofPower)) = r
  obtain ⟨s', _ | ⟨e, _ | ⟨e', es⟩⟩⟩ := r
  · split_ifs <;> simp
  · simp only [List.map_cons, List.map_nil]
    split_ifs <;> simp [respell]
  · simp only [List.map_cons]
    split_ifs <;> simp [respell]

theorem respell_ofPowers (s : Scalar) (ps : List Power) :
    respell ρ (ofPowers s ps) = ofPowers s (ps.map (respellPower ρ)) := by
  simp only [ofPowers]
  rw [foldl_gatherPowers, normalPowers_respell]
  simp [respellPowers, joinPowers_respell, respell_buildProduct]

theorem respell_timesExact (q : Rat) (e : Expr) :
    respell ρ (timesExact q e) = timesExact q (respell ρ e) := by
  simp [timesExact]
  split_ifs <;> simp [respell_ofPowers, Function.comp_def]

@[simp] theorem respell_product (es : List Expr) :
    respell ρ (product es) = product (es.map (respell ρ)) := by
  have hpowers : respell ρ (ofPowers .one ((spreadFactors es).map toPower)) =
      ofPowers .one ((spreadFactors (es.map (respell ρ))).map toPower) := by
    simp [respell_ofPowers, Function.comp_def]
  unfold product
  rw [firstFault?_respell]
  split
  · rfl
  · clear * - hpowers
    split
    · exact respell_timesExact _ _
    · next e q hfirst =>
      have hfirst' (r : Rat) (h : respell ρ e = .num (.exact r)) :
          False := hfirst r (of_respell_eq_num h)
      simp only [List.map_cons, List.map_nil, respell]
      exact respell_timesExact q e
    · next hfirst hsecond =>
      split
      · obtain ⟨x, xs, rfl, hx, hxs⟩ := of_map_respell_eq_cons ‹_›
        obtain ⟨y, ys, rfl, -, hys⟩ := of_map_respell_eq_cons hxs
        obtain rfl := of_respell_eq_num hx
        obtain rfl := of_map_respell_eq_nil hys
        exact absurd rfl (hfirst _ y)
      · obtain ⟨x, xs, rfl, -, hxs⟩ := of_map_respell_eq_cons ‹_›
        obtain ⟨y, ys, rfl, hy, hys⟩ := of_map_respell_eq_cons hxs
        obtain rfl := of_respell_eq_num hy
        obtain rfl := of_map_respell_eq_nil hys
        exact absurd rfl (hsecond x _)
      · exact hpowers

@[grind =] theorem respell_product_pair (a b : Expr) :
    respell ρ (product [a, b]) = product [respell ρ a, respell ρ b] :=
  respell_product _

@[simp, grind =] theorem respell_ofPowers_one (s : Scalar) (b x : Expr) :
    respell ρ (ofPowers s [(b, x)]) = ofPowers s [(respell ρ b, respell ρ x)] :=
  respell_ofPowers _ _

/-! ### Powers of numbers -/

@[simp, grind =] theorem respell_ofComplex (p : Nat) (z : Complex) :
    respell ρ (ofComplex p z) = ofComplex p z := by
  unfold ofComplex
  dsimp only
  split_ifs <;> rfl

theorem respell_ofPowers_of_roots (s : Scalar) (r : Scalar × List Radical.Root) :
    respell ρ (ofPowers s (rootPowers r).2) = ofPowers s (rootPowers r).2 := by
  have hroots := congrArg Prod.snd (respellPowers_rootPowers (ρ := ρ) r)
  rw [respell_ofPowers]
  exact congrArg _ hroots

@[simp, grind =] theorem respell_roundedPower (p : Nat) (s t : Scalar) :
    respell ρ (roundedPower p s t) = roundedPower p s t := by
  unfold roundedPower
  dsimp only
  split
  · rfl
  · split
    · split
      · exact respell_ofPowers_of_roots _ _
      · exact respell_ofComplex _ _
    · exact respell_ofComplex _ _

@[simp, grind =] theorem respell_infinitePower (s : Scalar) (negative : Bool) :
    respell ρ (infinitePower s negative) = infinitePower s negative := by
  unfold infinitePower
  grind

@[simp, grind =] theorem respell_scalarPower (s t : Scalar) :
    respell ρ (scalarPower s t) = scalarPower s t := by
  have hroots (q r : Rat) : respell ρ (ofPowers (fractionPower q r).1 (fractionPower q r).2) =
      ofPowers (fractionPower q r).1 (fractionPower q r).2 := by
    rw [respell_ofPowers]
    exact congrArg _ (congrArg Prod.snd (respellPowers_fractionPower (ρ := ρ) q r))
  unfold scalarPower
  grind

/-! ### Powers of expressions -/

@[simp, grind =] theorem isHalved_respell (e : Expr) : isHalved (respell ρ e) = isHalved e := by
  grind [isHalved.eq_def]

@[simp, grind =] theorem isProper_respell (e : Expr) : isProper (respell ρ e) = isProper e := by
  simp [isProper]

@[simp, grind =] theorem edgePower?_respell (b e : Expr) :
    edgePower? (respell ρ b) (respell ρ e) = (edgePower? b e).map (respell ρ) := by
  cases b with
  | num s =>
    cases s with
    | exact q =>
      by_cases hq : q = 0
      · subst hq
        refine (edgePower?.eq_1 _).trans
          (.trans ?_ (congrArg (Option.map (respell ρ)) (edgePower?.eq_1 _).symm))
        simp only [nature_respell, isConstant_respell, realValue?_respell, zeroPower_respell,
          respellPowers]
        grind [respell_ofPowers]
      · have hedge (x : Expr) : edgePower? (.num (.exact q)) x = none :=
          edgePower?.eq_5 _ _ (fun h => hq (Scalar.exact.inj (Expr.num.inj h))) (by simp) (by simp)
            (by simp)
        rw [respell, hedge, hedge]
        rfl
    | _ =>
      simp only [respell, edgePower?, nature_respell, sign?_respell, Option.map_map,
        Function.comp_def]
      grind
  | _ => rfl

@[simp, grind =] theorem respell_realSize (a : Expr) :
    respell ρ (realSize a) = realSize (respell ρ a) := by
  simp only [realSize, nature_respell, leadsMinus_respell]
  split_ifs <;> simp [respell]

@[simp, grind =] theorem nestedPower?_respell (b e x : Expr) :
    nestedPower? (respell ρ b) (respell ρ e) (respell ρ x) =
      (nestedPower? b e x).map (respell ρ) := by
  have htwo : respell ρ (ofPowers .one [(minusOne, x), (negate b, negate x)]) =
      ofPowers .one [(minusOne, respell ρ x), (negate (respell ρ b), negate (respell ρ x))] := by
    simp [respell_ofPowers, respellPower]
  have hbase :
      (if (nature e).isEven && (nature b).isReal then realSize (respell ρ b) else respell ρ b) =
      respell ρ (if (nature e).isEven && (nature b).isReal then realSize b else b) := by
    split <;> simp
  simp only [nestedPower?, nature_respell, isHalved_respell, isProper_respell, isConstant_respell,
    respell_eq_minusOne, hbase]
  split_ifs <;> simp [htwo]

theorem releasePowers_respell (b : Expr) :
    releasePowers (respell ρ b) = Prod.map (List.map (respell ρ)) (List.map (respell ρ))
      (releasePowers b) := by
  have hminus (n : Expr) : (respell ρ n != minusOne) = (n != minusOne) := by
    simp [bne, beq_eq_decide]
  have hone (n : Expr) : negate (respell ρ n) = one ↔ negate n = one := by
    rw [← respell_negate, respell_eq_one]
  have hsplit (p : Nature → Bool) (es : List Expr) :
      (es.map (respell ρ)).filter (fun f => p (nature f)) =
      (es.filter fun f => p (nature f)).map (respell ρ) := by
    simp [List.filter_map, Function.comp_def]
  simp only [releasePowers, List.partition_eq_filter_filter, factors_respell, Function.comp_def,
    hsplit Nature.notNeg, hsplit fun n => !n.notNeg, hsplit Nature.isNeg, hsplit fun n => !n.isNeg]
  generalize (factors b).filter (fun f => (nature f).notNeg) = above
  generalize (factors b).filter (fun f => !(nature f).notNeg) = others
  generalize others.filter (fun f => (nature f).isNeg) = below
  generalize others.filter (fun f => !(nature f).isNeg) = rest
  rcases below with _ | ⟨n, _ | ⟨k, more⟩⟩
  · rfl
  · simp only [List.map_cons, List.map_nil, isNumber_respell, hminus, List.isEmpty_map]
    split <;> simp
  · simp only [List.map_cons, List.isEmpty_map, isNumber_respell]
    split_ifs <;> simp_all

@[simp, grind =] theorem respell_memberPower (b e : Expr) :
    respell ρ (memberPower b e) = memberPower (respell ρ b) (respell ρ e) := by
  grind [memberPower.eq_def]

@[simp, grind =] theorem respell_generalPower (b e : Expr) :
    respell ρ (generalPower b e) = generalPower (respell ρ b) (respell ρ e) := by
  have hint' := int?_respell (ρ := ρ) e
  rcases hint : int? e with _ | n
  · rw [hint] at hint'
    cases b with
    | const c =>
      cases c with
      | i =>
        simp only [generalPower, hint, hint', respell]
        grind
      | _ => simp only [generalPower, hint, hint', respell]
    | mul x y =>
      have hrelease := releasePowers_respell (ρ := ρ) (.mul x y)
      simp only [respell] at hrelease
      simp only [generalPower, hint, hint', respell, hrelease, isNumber_respell, Prod.map,
        List.isEmpty_map]
      rcases releasePowers (.mul x y) with ⟨released, rest⟩
      dsimp only
      split_ifs
      · rfl
      · rw [respell_product]
        refine congrArg product (congrArg₂ List.cons ?_ (by simp))
        rcases rest with _ | ⟨a, _ | ⟨b, rest⟩⟩
        · rfl
        · exact respell_memberPower a e
        · simp [respell, ← inOrder_respell]
      · rfl
    | num s =>
      simp only [generalPower, hint, hint', respell]
      split <;> first | contradiction | simp [respell]
    | pow x y => simp [generalPower, hint, hint', respell]
    | add x y => simp [generalPower, hint, hint', respell]
    | _ => simp [generalPower, hint, hint', respell]
  · simp [generalPower, hint, respell_ofPowers]

/-! ### Common denominators -/

/-- What a member of a product leaves below the bar. -/
def denominator? (f : Expr) : Option Expr :=
  match f with
  | .pow b x => if isTermNeg x then some (.pow b (negate x)) else none
  | _ => none

theorem denominator?_respell (f : Expr) :
    denominator? (respell ρ f) = (denominator? f).map (respell ρ) := by
  grind [denominator?.eq_def, isTermNeg_respell]

theorem denominators_respell (e : Expr) :
    denominators (respell ρ e) = (denominators e).map (respell ρ) := by
  have hmembers (e : Expr) : denominators e = (factors e).filterMap denominator? := rfl
  simp [hmembers, List.filterMap_map, List.map_filterMap, denominator?_respell]

theorem isBelow_respell (l : Expr) (below : List Expr) :
    isBelow (respell ρ l) (below.map (respell ρ)) = isBelow l below := by
  have hone : [Expr.pow (respell ρ l) one] = [Expr.pow l one].map (respell ρ) := rfl
  rw [isBelow, isBelow, hone, beq_eq_decide, beq_eq_decide]
  simp only [(List.map_injective_iff.mpr respell_injective).eq_iff]

theorem commonDenominators_respell (es : List Expr) :
    commonDenominators (es.map (respell ρ)) = (commonDenominators es).map (respell ρ) := by
  have hmap :
      (es.map (respell ρ)).map denominators = (es.map denominators).map (List.map (respell ρ)) := by
    simp [denominators_respell, Function.comp_def]
  simp only [commonDenominators, hmap]
  rcases es.map denominators with _ | ⟨d, ds⟩
  · rfl
  · simp [List.filter_map, Function.comp_def]

/-! ### Any power -/

@[simp, grind =] theorem exponentOfE?_respell (b x : Expr) :
    exponentOfE? (respell ρ b) (respell ρ x) = (exponentOfE? b x).map (respell ρ) := by
  have hbelow := isBelow_respell (ρ := ρ) (.fn .log b) (commonDenominators (terms x))
  simp only [respell] at hbelow
  simp only [exponentOfE?, terms_respell, commonDenominators_respell, hbelow]
  split <;> simp [respell, Function.comp_def]

@[simp, grind =] theorem respell_exp (x : Expr) : respell ρ (exp x) = exp (respell ρ x) := by
  have hgeneral (x : Expr) : respell ρ (ofPowers (expPowers x).1 (expPowers x).2) =
      ofPowers (expPowers (respell ρ x)).1 (expPowers (respell ρ x)).2 := by
    rw [respell_ofPowers, expPowers_respell]
    rfl
  grind [exp.eq_def]

@[simp, grind =] theorem respell_power (b e : Expr) :
    respell ρ (power b e) = power (respell ρ b) (respell ρ e) := by
  have hfault := firstFault?_respell (ρ := ρ) [b, e]
  simp only [List.map_cons, List.map_nil] at hfault
  have hzero : respell ρ e = zero ↔ e = zero := respell_eq_zero
  have hone : respell ρ e = one ↔ e = one := respell_eq_one
  by_cases hb : b = one
  · subst hb
    cases e with
    | num t =>
      rw [respell_one, respell_num]
      simp only [power]
      split
      · rfl
      · split_ifs
        · rfl
        · rfl
        · exact respell_scalarPower _ _
    | _ => rfl
  · have hb' (q : Rat) (h : b = .num (.exact q)) (hnum : q.num = 1) (hden : q.den = 1) : False :=
      hb (h ▸ congrArg (fun q => Expr.num (.exact q)) (Rat.ext hnum hden))
    grind [power.eq_def]

@[simp, grind =] theorem respell_quotient (a b : Expr) :
    respell ρ (quotient a b) = quotient (respell ρ a) (respell ρ b) := by
  grind [quotient.eq_def]

@[simp, grind =] theorem respell_sqrt (e : Expr) :
    respell ρ (sqrt e) = sqrt (respell ρ e) := by simp [sqrt]

@[simp, grind =] theorem respell_imaginary (e : Expr) :
    respell ρ (imaginary e) = imaginary (respell ρ e) := by simp [imaginary]

end Formulary.Expr
