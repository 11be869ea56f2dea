import Formulary.Calc.Radical
import Formulary.Calc.Leading

/-! # Products

The product of a list of expressions: numbers multiply, powers of one base are
collected where their exponents differ by a factor, roots of numbers are brought
to one form, and powers of numbers with one exponent are joined. A number goes
into the terms of a single sum beside it.
-/

namespace Formulary.Expr

abbrev Power := Expr × Expr

def isProduct : Expr → Bool
  | .mul .. => true
  | _ => false

/-- The members in the order in which they are multiplied: those of products within come last. -/
def spreadFactors (es : List Expr) : List Expr :=
  es.filter (fun e => !isProduct e) ++ (es.filter isProduct).flatMap factors

/-- A member as a power; a fraction below one gives way to its inverse. -/
def toPower : Expr → Power
  | .pow (.num (.exact q)) e =>
    if 0 < q && q < 1 then (ofRat q⁻¹, negate e) else (ofRat q, e)
  | .pow b e => (b, e)
  | .const .i => (minusOne, half)
  | e => (e, one)

def ofPower (p : Power) : Expr :=
  if p.2 = one then p.1
  else if p = (minusOne, half) then .const .i
  else .pow p.1 p.2

/-- The powers in `e ^ n`, each member of a product raised. -/
def raise : Expr → Int → List Power
  | .mul a b, n => raise a n ++ raise b n
  | .pow b e, n =>
    let e := timesScalar (.ofInt n) e
    match e.int? with
    | some k => raise b k
    | none => [(b, e)]
  | .const .i, n => [(minusOne, .num (.exact (n / 2 : Rat)))]
  | e, n => [(e, ofInt n)]

def areAlike (p q : Power) : Bool := q.1 == p.1 && (splitTerm q.2).2 == (splitTerm p.2).2

/-- Adds an exponent to an exponent of the base that is a multiple of the same. -/
def collectPower (p : Power) : List Power → List Power
  | [] => [p]
  | q :: rest => if areAlike p q then (q.1, sum [q.2, p.2]) :: rest else q :: collectPower p rest

/-- Plain numbers go into the coefficient. -/
def gatherPowers (acc : Scalar × List Power) (p : Power) : Scalar × List Power :=
  match p with
  | (.num s, e) => if e = one then (acc.1.mul s, acc.2) else (acc.1, collectPower p acc.2)
  | _ => (acc.1, collectPower p acc.2)

def rootPowers (r : Scalar × List Radical.Root) : Scalar × List Power :=
  (r.1, r.2.map fun root => (ofInt root.base, ofRat root.exponent))

def fractionPower (q r : Rat) : Scalar × List Power :=
  if q = 0 then (if r < 0 then .pole else if r = 0 then .one else .zero, [])
  else rootPowers (Radical.ofPower q r)

def isLog : Expr → Bool
  | .fn .log _ => true
  | _ => false

def logArgument? : List Expr → Option Expr
  | [.fn .log a] => some a
  | _ => none

/-- A rounded power of `e`, cut a few bits further on before it is rounded. -/
def expScalar (p : Nat) (x : Binary) : Scalar :=
  if x.isZero then .one
  else .settle p ((Elementary.exp (p + Scalar.guardBits) x).truncate (p + Scalar.roundingBits))

/-- The powers in `a ^ c`, for `e ^ (c log a)`. -/
def powersOf (a c : Expr) : Scalar × List Power :=
  match c.int?, a.rat?, c.rat? with
  | some n, _, _ => (.one, raise a n)
  | none, some q, some r => fractionPower q r
  | _, _, _ => (.one, [(a, c)])

def halfTurns? (t : Expr) : Option Rat :=
  match splitTerm t with
  | (.exact q, some r) => if r = mulChain (inOrder [pi, .const .i]) then some q else none
  | _ => none

/-- Is a term `n π i` with `n` known to be even or odd? It is told whether `n` is odd. -/
def oddTurns? (t : Expr) : Option Bool :=
  let (turn, others) := (factors t).partition fun f => f == pi || f == .const .i
  let n := (others.map nature).foldl Nature.mul (.ofScalar .one)
  if turn.length ≠ 2 then none
  else if n.isEven then some false
  else if n.isOdd then some true
  else none

/-- What `e` to the power of one term of an exponent is, where that is known. -/
def expTerm? (t : Expr) : Option (Scalar × List Power) :=
  match t with
  | .num (.rounded p x) => some (expScalar p x, [])
  | .num (.infinite s) => some (if s then .zero else .infinite false, [])
  | .num .pole | .num .undefined => some (.undefined, [])
  | t =>
    match halfTurns? t, oddTurns? t with
    | some q, _ => some (rootPowers (Radical.ofPower (-1) q))
    | none, some odd => some (if odd then .minusOne else .one, [])
    | none, none =>
      let (logs, others) := (factors t).partition isLog
      match logArgument? logs with
      | some a =>
        if others.all fun o => (realValue? o).isSome then some (powersOf a (mulChain others))
        else none
      | none => none

def expPowers (t : Expr) : Scalar × List Power :=
  let known := (terms t).filterMap expTerm?
  let rest := (terms t).filter fun u => (expTerm? u).isNone
  let left := sum rest
  (known.foldl (fun s k => s.mul k.1) .one,
    known.flatMap (·.2) ++ if left = zero then [] else [(.const .e, left)])

/-- A power of zero: a coefficient of the exponent only counts by its sign. -/
def zeroPower (e : Expr) : Scalar × List Power :=
  match splitTerm e with
  | (s, some r) => (.one, [(if s.isNeg then pole else zero, r)])
  | (s, none) => (if s.isNeg then .pole else if s.isPos then .zero else .one, [])

def sizePower (a : Expr) (n : Int) : List Power :=
  if n % 2 = 0 then [(a, ofInt n)]
  else if n = -1 || n = 1 then [(.fn .abs a, ofInt n)]
  else [(a, ofInt (n - 1)), (.fn .abs a, one)]

/-! ### Sums with rounded coefficients -/

def isRounded : Scalar → Bool
  | .rounded .. => true
  | _ => false

def greatestSize (cs : List Scalar) : Scalar :=
  cs.foldl (fun big c => if big.compare? c.size = some .gt then big else c.size) .zero

/-- A coefficient over the greatest one; those of its size become signs. -/
def overGreatest (big c : Scalar) : Scalar :=
  if isRounded c == isRounded big && c.size.compare? big = some .eq then
    if c.isNeg then .minusOne else .one
  else c.div big

def positivePower (s t : Scalar) : Scalar × List Power :=
  match s, t with
  | .exact q, .exact r => fractionPower q r
  | _, _ =>
    let p := Scalar.commonBits s t
    match t.int? with
    | some n => ((s.powInt n), [])
    | none => (.settle p (Elementary.pow p (s.toBinary p) (t.toBinary p)), [])

/-- Under an exponent that is a number, a sum with a rounded coefficient is measured by its greatest
coefficient, which leaves the power. Constants under a fraction stay as they are. -/
def releaseGreatest? (b e : Expr) : Option (Scalar × List Power) :=
  match b, e with
  | .add .., .num t =>
    let ts := (terms b).map splitTerm
    let big := greatestSize (ts.map Prod.fst)
    if !t.isFinite || t = .one || t = .minusOne || !ts.any (isRounded ·.1)
        || !ts.all (·.1.isFinite) || big.isZero || big.compare? .one = some .eq
        || (!isRounded t && isConstant b) then none
    else
      let measured := sum (ts.map fun (c, rest) =>
        timesScalar (overGreatest big c) (rest.getD one))
      let (s, ps) := positivePower big t
      some (s, ps ++ [(measured, e)])
  | _, _ => none

/-- A collected power in its final form, a coefficient split off. -/
def settlePower (p : Power) : Scalar × List Power :=
  match p with
  | (.num (.exact 0), e) => zeroPower e
  | (_, .num (.exact 0)) => (.one, [])
  | (.num (.exact q), .num (.exact r)) => fractionPower q r
  | (.num (.exact (-1)), e) =>
    let n := nature e
    if n.isEven then (.one, []) else if n.isOdd then (.minusOne, []) else (.one, [p])
  | (.const .e, e) => expPowers e
  | (.fn .abs a, .num (.exact q)) =>
    if q.den = 1 && (nature a).isReal then (.one, sizePower a q.num) else (.one, [p])
  | (b, e) =>
    if e.scalar?.any Scalar.isZero then (.one, []) else
    match releaseGreatest? b e with
    | some released => released
    | none =>
      match e.int? with
      | some n => (.one, if n = 1 && !isProduct b then [p] else raise b n)
      | none => (.one, [p])

/-- Collects and settles powers; each pass may bring up new equal bases. -/
def normalPowers : Nat → Scalar × List Power → Scalar × List Power
  | 0, acc => acc
  | passes + 1, (s, ps) =>
    let settled := ps.map settlePower
    let coefficient := settled.foldl (fun c k => c.mul k.1) s
    normalPowers passes ((settled.flatMap (·.2)).foldl gatherPowers (coefficient, []))

/-- Members of which the sign is known only count by it beside an infinite coefficient, and members
known not to be zero not at all beside a pole. -/
def besideCoefficient (s : Scalar) (es : List Expr) : Scalar × List Expr :=
  match s with
  | .infinite negative =>
    let flips := es.filter fun e => (nature e).isNeg
    (.infinite (negative != (flips.length % 2 == 1)),
      es.filter fun e => !((nature e).isPos || (nature e).isNeg || (realValue? e).isSome))
  | .pole => (s, es.filter fun e => !(isConstant e || (nature e).isReal && (nature e).notZero))
  | s => (s, es)

/-- Joins a power of a number above zero to one with the same exponent. -/
def joinPower (p : Power) : List Power → List Power
  | [] => [p]
  | (.num s, x) :: rest =>
    match p with
    | (.num t, e) =>
      if x = e && s.isPos && t.isPos && (splitTerm e).2.isSome then (.num (s.mul t), x) :: rest
      else (.num s, x) :: joinPower p rest
    | _ => (.num s, x) :: joinPower p rest
  | q :: rest => q :: joinPower p rest

def joinPowers (ps : List Power) : List Power :=
  (ps.foldl (fun qs p => joinPower p qs) []).filter fun p => p.1 != one

def buildProduct (s : Scalar) (ps : List Power) : Expr :=
  if s = .undefined then undefined
  else if s.isZero then zero
  else if ps.any fun p => p.1 == interval then interval
  else
    let (s, es) := besideCoefficient s (inOrder (ps.map ofPower))
    match es with
    | [] => .num s
    | [e] => if s = .one then e else if s.isFinite then timesScalar s e else .mul (.num s) e
    | es => if s = .one then mulChain es else .mul (.num s) (mulChain es)

def passes : Nat := 3

def ofPowers (s : Scalar) (ps : List Power) : Expr :=
  let (s, ps) := normalPowers passes (ps.foldl gatherPowers (s, []))
  buildProduct s (joinPowers ps)

def timesExact (q : Rat) (e : Expr) : Expr :=
  if q = 0 then ofPowers .zero ((factors e).map toPower) else timesScalar (.exact q) e

def product (es : List Expr) : Expr :=
  match firstFault? es with
  | some f => .failed f
  | none =>
    match es with
    | [.num (.exact q), e] | [e, .num (.exact q)] => timesExact q e
    | es => ofPowers .one ((spreadFactors es).map toPower)

end Formulary.Expr
