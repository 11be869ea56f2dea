import Formulary.Calc.Approx

/-! # What is known of a value

What can be said of the value of an expression whatever its symbols stand for. A
symbol may stand for any complex number, so only sizes, remainders and what is
made of them have a sign.
-/

namespace Formulary

/-- Facts known of a value; a fact that is not known may still hold. Infinite values are real. -/
structure Nature where
  isReal : Bool := false
  isFinite : Bool := false
  notNeg : Bool := false
  notPos : Bool := false
  notZero : Bool := false
  isWhole : Bool := false
  isEven : Bool := false
  isOdd : Bool := false
  deriving DecidableEq, Repr

namespace Nature

def isPos (n : Nature) : Bool := n.isReal && n.notNeg && n.notZero

def isNeg (n : Nature) : Bool := n.isReal && n.notPos && n.notZero

def ofReal (x : Binary) : Nature where
  isReal := true
  isFinite := true
  notNeg := !x.isNeg
  notPos := x.isNeg || x.isZero
  notZero := !x.isZero
  isWhole := x.isZero
  isEven := x.isZero

def ofScalar : Scalar → Nature
  | .exact q =>
    { isReal := true, isFinite := true, notNeg := 0 ≤ q, notPos := q ≤ 0, notZero := q != 0,
      isWhole := q.den == 1, isEven := q.den == 1 && q.num % 2 = 0,
      isOdd := q.den == 1 && q.num % 2 = 1 }
  | .rounded _ x => ofReal x
  | .infinite negative =>
    { isReal := true, notNeg := !negative, notPos := negative, notZero := true }
  | .pole => { notZero := true }
  | .undefined => {}

def ofComplex (z : Complex) : Nature :=
  if z.isReal then { ofReal z.re with isWhole := false, isEven := false }
  else { isFinite := true, notZero := true }

def add (a b : Nature) : Nature where
  isReal := a.isReal && b.isReal
  isFinite := a.isFinite && b.isFinite
  notNeg := a.notNeg && b.notNeg
  notPos := a.notPos && b.notPos
  notZero := (a.notNeg && b.notNeg || a.notPos && b.notPos) && (a.notZero || b.notZero)
  isWhole := a.isWhole && b.isWhole
  isEven := a.isEven && b.isEven || a.isOdd && b.isOdd
  isOdd := a.isEven && b.isOdd || a.isOdd && b.isEven

def mul (a b : Nature) : Nature where
  isReal := a.isReal && b.isReal
  isFinite := a.isFinite && b.isFinite
  notNeg := a.notNeg && b.notNeg || a.notPos && b.notPos
  notPos := a.notNeg && b.notPos || a.notPos && b.notNeg
  notZero := a.notZero && b.notZero
  isWhole := a.isWhole && b.isWhole
  isEven := a.isEven && b.isWhole || a.isWhole && b.isEven
  isOdd := a.isOdd && b.isOdd

def pow (a b : Nature) : Nature :=
  let isReal := a.isPos && b.isReal || a.notNeg && b.isReal && b.notNeg ||
    a.isReal && b.isWhole && (a.notZero || b.notNeg)
  { isReal, isFinite := a.isFinite && b.isFinite && (a.notZero || b.notNeg),
    notNeg := isReal && (a.notNeg || b.isEven), notZero := a.notZero && a.isFinite && b.isFinite,
    isWhole := a.isWhole && b.isWhole && b.notNeg,
    isEven := a.isEven && b.isWhole && b.isPos, isOdd := a.isOdd && b.isWhole && b.notNeg }

def exp (a : Nature) : Nature :=
  { isReal := a.isReal, isFinite := a.isFinite, notNeg := a.isReal, notZero := true }

def fn (f : Fn) (a : Nature) : Nature :=
  match f with
  | .abs =>
    { isReal := true, isFinite := a.isFinite, notNeg := true, notZero := a.notZero,
      isWhole := a.isReal && a.isWhole, isEven := a.isEven, isOdd := a.isOdd }
  | .sign =>
    { isReal := a.isReal, isFinite := true, notNeg := a.notNeg, notPos := a.notPos,
      notZero := a.notZero, isWhole := a.isReal }
  | .floor =>
    let plain := a.isReal && a.isFinite
    { isReal := plain, isFinite := a.isFinite, notNeg := plain && a.notNeg, isWhole := plain }
  | .ceil =>
    let plain := a.isReal && a.isFinite
    { isReal := plain, isFinite := a.isFinite, notPos := plain && a.notPos, isWhole := plain }
  | .sin | .cos => { isReal := a.isReal, isFinite := a.isReal }
  | .tan | .cot | .sec | .csc => { isReal := a.isReal }
  | .atan =>
    { isReal := a.isReal, isFinite := a.isReal, notNeg := a.isReal && a.notNeg, notZero := a.isPos }
  | .sinh =>
    let plain := a.isReal && a.isFinite
    { isReal := a.isReal, isFinite := a.isFinite, notNeg := plain && a.notNeg,
      notPos := plain && a.notPos, notZero := plain && a.notZero }
  | .tanh =>
    { isReal := a.isReal, isFinite := a.isReal, notNeg := a.isReal && a.notNeg,
      notPos := a.isReal && a.notPos, notZero := a.isReal && a.isFinite && a.notZero }
  | .cosh =>
    { isReal := a.isReal, isFinite := a.isFinite, notNeg := a.isReal, notZero := true }
  | .log => { isReal := a.isPos }
  | _ => {}

def fn2 (f : Fn2) (a b : Nature) : Nature :=
  match f with
  | .atan2 => { isReal := a.isReal && b.isReal, isFinite := a.isReal && b.isReal }
  | .mod =>
    { isReal := b.isPos || b.isNeg, isFinite := b.isPos || b.isNeg, notNeg := b.isPos,
      notPos := b.isNeg, isWhole := a.isWhole && b.isWhole && b.notZero }
  | .max => extreme a b (fun n => n.notNeg) (fun n => n.isPos) false
  | .min => extreme a b (fun n => n.isNeg) (fun n => n.isNeg) true
where
  /-- The extreme of two values. One that is finite and known to lie on the side the extreme goes to
  settles the side. -/
  extreme (a b : Nature) (settles clears : Nature → Bool) (below : Bool) : Nature :=
    let plain (n : Nature) : Bool := n.isReal && n.isFinite
    let settled := plain a && settles a || plain b && settles b
    { isReal := a.isReal && b.isReal || settled, isFinite := a.isFinite && b.isFinite || settled,
      notNeg := a.notNeg && b.notNeg || settled && !below,
      notPos := a.notPos && b.notPos || settled && below,
      notZero := plain a && clears a || plain b && clears b, isWhole := a.isWhole && b.isWhole }

end Nature

namespace Expr

/-- The facts known of an expression with symbols; constants are worked out. -/
def nature (e : Expr) : Nature :=
  match e with
  | .num s => .ofScalar s
  | e =>
    if isConstant e then (value? e).elim {} Nature.ofComplex
    else match e with
    | .add a b => .add (nature a) (nature b)
    | .mul a b => .mul (nature a) (nature b)
    | .pow (.const .e) b => .exp (nature b)
    | .pow a b => .pow (nature a) (nature b)
    | .fn .log (.add (.num s) a) =>
      let surplus := Nature.add (.ofScalar (s.add .minusOne)) (nature a)
      { Nature.fn .log (.add (.ofScalar s) (nature a)) with
        notNeg := surplus.isReal && surplus.notNeg, notZero := surplus.isPos }
    | .fn f a => .fn f (nature a)
    | .fn2 f a b => .fn2 f (nature a) (nature b)
    | _ => {}

/-- Is the value known to be a number of the form `c i` with `c` real? Only constants are. -/
def isImaginary (e : Expr) : Bool :=
  isConstant e && e.value?.any fun z => z.re.isZero && !z.im.isZero

end Expr

end Formulary
