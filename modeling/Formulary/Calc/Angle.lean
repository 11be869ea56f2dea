import Formulary.Calc.Power

/-! # Angles

Exact values of the circular functions at fractions of a half turn: radicals where
square roots of square roots suffice, else the same function at an angle of the
first quarter. An angle is taken apart into its half turns and the rest.
-/

namespace Formulary.Expr

/-! ### Half turns -/

/-- A rounded multiple counts as exact if it is whole, or whole after it is scaled by the power of
two nearest to the inverse of its fraction. -/
def exactMultiple? (x : Binary) : Option Rat :=
  let size := x.abs
  let part := Binary.addExact size (.ofInt (-size.floor))
  if part.isZero then some x.floor
  else
    let below := Binary.lt (.mulExact part part) ⟨1, 2 * part.top - 1⟩
    let places := (if below then 1 - part.top else -part.top).toNat
    let scaled := x.scale places
    if scaled.isInteger then some (mkRat scaled.floor (1 <<< places)) else none

def exactCoefficient? : Scalar → Option Rat
  | .exact q => some q
  | .rounded p x => if (Scalar.rounded p x).isFar then none else exactMultiple? x
  | _ => none

def piTimes (q : Rat) : Expr := product [ofRat q, pi]

/-- How an angle hangs on π: a fraction of it, a whole multiple that is not a number, such a one and
a half, another multiple with its coefficient made exact, or not as a multiple. -/
inductive Turn where
  | half (q : Rat)
  | whole (x : Expr)
  | wholeAndHalf (x : Expr)
  | scaled (a : Expr)
  | free
  deriving DecidableEq, Repr

def without? (e : Expr) : List Expr → Option (List Expr)
  | [] => none
  | x :: xs => if x = e then some xs else (without? e xs).map (x :: ·)

def ratMod (q m : Rat) : Rat := q - m * (q / m).floor

/-- The whole below a sum of whole terms and one half. -/
def belowHalf? (e : Expr) : Option Expr :=
  let (numbers, rest) := (terms e).partition isNumber
  match numbers with
  | [.num (.exact r)] =>
    if r.den = 2 && !rest.isEmpty && rest.all fun t => (nature t).isWhole then
      some (difference e half)
    else none
  | _ => none

def turnOfMultiple (a : Expr) (q : Rat) : List Expr → Turn
  | [] => .half q
  | xs =>
    let multiple := product [ofRat q, mulChain xs]
    match splitTerm multiple with
    | (.exact q, some x) =>
      if !(nature x).isWhole then
        match belowHalf? multiple with
        | some y => .wholeAndHalf y
        | none => .scaled (product [multiple, pi])
      else
        let m := ratMod q 2
        if m = 0 then .half 0
        else if m = 1 then .whole x
        else if m = q then .scaled a
        else .scaled (product [ofRat m, x, pi])
    | _ => .scaled a

def turn (a : Expr) : Turn :=
  match splitTerm a with
  | (.exact 0, none) => .half 0
  | (_, none) => .free
  | (s, some r) =>
    match without? pi (factors r), exactCoefficient? s with
    | none, _ => .free
    | some [], none => .scaled a
    | some xs, some q => turnOfMultiple a q xs
    | some _, none => .scaled a

def halfTurn? (t : Expr) : Option Expr :=
  match splitTerm t with
  | (.exact q, some r) =>
    match without? pi (factors r) with
    | some [] => some (ofRat q)
    | some xs =>
      let x := mulChain xs
      if (nature x).isWhole then some (timesScalar (.exact q) x) else none
    | none => none
  | _ => none

/-- A sum without the quarter turns in it, the half turns that are not a number, and the number of
quarter turns beside them. -/
structure Peeled where
  rest : Expr
  turns : Expr
  quarters : Int
  deriving DecidableEq, Repr

def peelTurns? (a : Expr) : Option Peeled :=
  if !isSum a then none
  else
    let ts := terms a
    let (numbers, multiples) := (ts.filterMap halfTurn?).partition isNumber
    let q := (numbers.filterMap Expr.rat?).foldl (· + ·) 0
    let turns := sum multiples
    let quarters : Int := (2 * q).floor
    if !(nature turns).isWhole || (turns = zero && quarters = 0) then none
    else
      let rest := ts.filter fun t => (halfTurn? t).isNone
      some ⟨sum (rest ++ [piTimes (q - mkRat quarters 2)]), turns, quarters⟩

/-! ### Values -/

/-- Denominators that are split into two, with `1 / d` the difference of their inverses. -/
def splitDenominator? (d : Nat) : Option (Nat × Nat) :=
  [(12, (3, 4)), (20, (4, 5)), (30, (5, 6)), (15, (6, 10)), (24, (6, 8)), (40, (8, 10)),
    (60, (20, 30)), (120, (40, 60))].lookup d

/-- Other denominators beyond this have no radicals written out. -/
def denominatorLimit : Nat := 12

def cosMultiple? : Nat → Rat → Option Expr
  | 0, _ => none
  | n + 1, q =>
    let c := ratMod q 2
    if 1 < c then (cosMultiple? n (c - 1)).map negate
    else if 1 / 2 < c then (cosMultiple? n (1 - c)).map negate
    else if c = 0 then some one
    else if c = 1 / 2 then some zero
    else if c = 1 / 3 then some half
    else if c.den = 5 then
      some (product [ofRat (1 / 4), sum [sqrt (ofInt 5), ofInt (if c.num = 1 then 1 else -1)]])
    else match splitDenominator? c.den with
    | some (a, b) => do
      let x : Rat := c.num / a
      let y : Rat := c.num / b
      let direct := product [← cosMultiple? n x, ← cosMultiple? n y]
      return sum [direct, product [← cosMultiple? n (1 / 2 - x), ← cosMultiple? n (1 / 2 - y)]]
    | none =>
      if denominatorLimit < c.den || c.den % 2 = 1 then none
      else do return sqrt (product [half, sum [one, ← cosMultiple? n (2 * c)]])

def cosSteps : Nat := 32

def cosAt? (q : Rat) : Option Expr := cosMultiple? cosSteps q

def sinAt? (q : Rat) : Option Expr := cosAt? (q - 1 / 2)

def tenthTangent? (tenths : Int) : Option Expr :=
  let root5 := sqrt (ofInt 5)
  if tenths = 1 then some (sqrt (sum [one, product [ofRat (-2 / 5), root5]]))
  else if tenths = 2 then some (sqrt (sum [ofInt 5, product [ofInt (-2), root5]]))
  else if tenths = 3 then some (sqrt (sum [one, product [ofRat (2 / 5), root5]]))
  else if tenths = 4 then some (sqrt (sum [ofInt 5, product [ofInt 2, root5]]))
  else none

/-- `(cos, sin)` of `q π`. -/
def legsAt? (q : Rat) : Option (Expr × Expr) := do return (← cosAt? q, ← sinAt? q)

def reciprocal (a : Expr) : Expr := quotient one a

def tanMultiple? : Nat → Rat → Option Expr
  | 0, _ => none
  | n + 1, q =>
    let c := ratMod q 1
    if c = 0 then some zero
    else if c.den = 5 || c.den = 10 then
      let tenths := (10 * c).num
      if 5 < tenths then (tenthTangent? (10 - tenths)).map negate else tenthTangent? tenths
    else match (if c.den % 2 = 0 then legsAt? (2 * c) else none) with
    | some (x, y) =>
      some (if y = zero then pole else difference (reciprocal y) (quotient x y))
    | none =>
      match splitDenominator? c.den with
      | some (a, b) => do
        let x ← tanMultiple? n (c.num / a)
        let y ← tanMultiple? n (c.num / b)
        return quotient (difference x y) (sum [one, product [x, y]])
      | none => do
        let (x, y) ← legsAt? (ratMod (c + 1 / 2) 1 - 1 / 2)
        return if x = zero then pole else quotient y x

def tanAt? (q : Rat) : Option Expr := tanMultiple? cosSteps q

def cotMultiple? : Nat → Rat → Option Expr
  | 0, _ => none
  | n + 1, q =>
    let c := ratMod q 1
    if c = 0 then some pole
    else if c.den = 5 || c.den = 10 then tanAt? (1 / 2 - c)
    else match (if c.den % 2 = 0 && 2 < c.den then legsAt? (2 * c) else none) with
    | some (x, y) => some (sum [reciprocal y, quotient x y])
    | none =>
      match splitDenominator? c.den with
      | some (a, b) => do
        let x ← cotMultiple? n (c.num / a)
        let y ← cotMultiple? n (c.num / b)
        return quotient (sum [one, product [x, y]]) (difference y x)
      | none => do
        let (x, y) ← legsAt? (ratMod (c + 1 / 2) 1 - 1 / 2)
        return if y = zero then pole else quotient x y

def cotAt? (q : Rat) : Option Expr := cotMultiple? cosSteps q

/-- The same function at an angle of the first quarter. -/
def folded (f : Fn) (q : Rat) : Expr :=
  let c := ratMod q 2
  let h := ratMod (q + 1 / 2) 1 - 1 / 2
  match f with
  | .sin | .csc =>
    if 1 < c then
      negate (.fn f (piTimes (if 1 / 2 < c - 1 then 2 - c else c - 1)))
    else .fn f (piTimes (if 1 / 2 < c then 1 - c else c))
  | .cos | .sec =>
    if 1 < c then
      if 1 / 2 < c - 1 then .fn f (piTimes (2 - c)) else negate (.fn f (piTimes (c - 1)))
    else if 1 / 2 < c then negate (.fn f (piTimes (1 - c)))
    else .fn f (piTimes c)
  | f => if h < 0 then negate (.fn f (piTimes (-h))) else .fn f (piTimes h)

def circularAt (f : Fn) (q : Rat) : Expr :=
  let known := match f with
    | .sin => sinAt? q
    | .cos => cosAt? q
    | .tan => tanAt? q
    | .cot => cotAt? q
    | .sec => (cosAt? q).map reciprocal
    | .csc => (sinAt? q).map reciprocal
    | _ => none
  known.getD (folded f q)

end Formulary.Expr
