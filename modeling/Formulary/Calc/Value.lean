import Formulary.Calc.Function
import Formulary.Calc.Term

/-! # Values of terms

A term is worked out from the inside, operands from left to right, and the first
fault ends it. Besides expressions there are comparisons, lists and texts, which
arithmetic refuses.
-/

namespace Formulary

/-- `formal` is a logical combination, and faults when numbers are put into it. -/
inductive Value where
  | expr (e : Expr)
  | relation (c : Comparison) (a b : Expr)
  | truth (b : Bool)
  | formal (f : Fault) (e : Expr)
  | flag (b : Bool)
  | tuple
  | other
  deriving DecidableEq, Repr

/-- A function of formulas: identifiers of its formals, and what they are put into. -/
structure Routine where
  formals : List Text
  body : Value
  deriving DecidableEq, Repr

namespace Value

abbrev Result := Except Fault Value

def ofExpr (e : Expr) : Result :=
  match e with
  | .failed f => .error f
  | e => .ok (.expr e)

def expr? : Value → Option Expr
  | .expr e => some e
  | _ => none

def exprs? (vs : List Value) : Option (List Expr) := vs.mapM expr?

def int? : Value → Option Int
  | .expr e => e.int?
  | _ => none

def symbols : Value → List Text
  | .expr e | .formal _ e => e.symbols
  | .relation _ a b => a.symbols ++ b.symbols
  | _ => []

/-- Bits of a decimal literal: those of a double, or more if it has more than fifteen digits. -/
def decimalBits (count : Nat) : Nat :=
  ((max 15 count + 1) * 33219280948873626 + 5000000000000000) / 10000000000000000

def decimal (digits count : Nat) (power : Int) : Expr :=
  let p := decimalBits count
  let q : Rat := if 0 ≤ power then (digits * Nat.pow 10 power.toNat : Nat)
    else mkRat digits (Nat.pow 10 power.natAbs)
  .num (.round p (Binary.ofRat p q))

/-! ### Comparisons -/

def holds (c : Comparison) (o : Ordering) : Bool :=
  match c with
  | .less => o == .lt
  | .lessEq => o != .gt
  | .greater => o == .gt
  | .greaterEq => o != .lt
  | .equal => o == .eq
  | .notEqual => o != .eq

def order? (a b : Expr) : Option Ordering :=
  match a, b with
  | .num s, .num t => s.compare? t
  | a, b => (Expr.sign? (Expr.difference a b)).map fun s => compare s 0

def relate (c : Comparison) (a b : Value) : Result :=
  match c, a, b with
  | .equal, a, b => .ok (.flag (a == b))
  | .notEqual, a, b => .ok (.flag (a != b))
  | c, .expr a, .expr b =>
    if !a.isConstant || !b.isConstant then .ok (.relation c a b)
    else
      match order? a b with
      | some o => .ok (.truth (holds c o))
      | none => .error .badOperand
  | _, _, _ => .error .badOperand

/-- Whether a chain of comparisons goes on after a link. -/
def goesOn : Value → Except Fault Bool
  | .truth b | .flag b => .ok b
  | _ => .error .badOperand

/-! ### Operators -/

def wrap (w : Nat) (n : Int) : Nat := (n % ((1 : Int) <<< w)).toNat

def unwrap (w : Nat) (n : Nat) : Int :=
  if n < 1 <<< (w - 1) then n else (n : Int) - ((1 : Int) <<< w)

def bitwise (op : Nat → Nat → Nat) (a b : Int) : Int :=
  let w := max (bitLength a.natAbs) (bitLength b.natAbs) + 2
  unwrap w (op (wrap w a) (wrap w b))

/-- Numbers are shifted up this far. -/
def shiftLimit : Nat := 1 <<< 20

def shiftUp (a : Int) (n : Nat) : Result :=
  if a = 0 then .ok (.expr (.ofInt 0))
  else if n > shiftLimit then .error .tooLarge
  else .ok (.expr (.ofInt (a <<< n)))

/-- Beyond the bits that a number has, only its sign is left. -/
def shiftDown (a : Int) (n : Nat) : Result :=
  .ok (.expr (.ofInt (a >>> min n (bitLength a.natAbs + 1))))

def isLogical : Value → Bool
  | .expr (.sym _) | .relation .. | .truth _ | .formal .. => true
  | _ => false

def isSymbol : Value → Bool
  | .expr (.sym _) => true
  | _ => false

def operands : Value → Expr
  | .expr e | .formal _ e => e
  | .relation _ a b => .pair a b
  | _ => .zero

def combine (op : BinaryOp) (a b : Value) : Result :=
  if !(isLogical a && isLogical b) then .error .badOperand
  else if a = b then .ok (if op = .bitXor then .truth false else a)
  else
    .ok (.formal (if isSymbol a || isSymbol b then .badOperand else .noNumber)
      (.pair (operands a) (operands b)))

def binaryExpr (op : BinaryOp) (a b : Expr) : Result :=
  match op with
  | .add => ofExpr (Expr.sum [a, b])
  | .sub => ofExpr (Expr.difference a b)
  | .mul => ofExpr (Expr.product [a, b])
  | .div => ofExpr (Expr.quotient a b)
  | .floorDiv => ofExpr (Expr.floorQuotient a b)
  | .mod => ofExpr (Expr.mod a b)
  | .pow => ofExpr (Expr.power a b)
  | _ => .error .badOperand

def binaryInt? (op : BinaryOp) (a b : Int) : Option Result :=
  match op with
  | .bitOr => some (.ok (.expr (.ofInt (bitwise Nat.lor a b))))
  | .bitAnd => some (.ok (.expr (.ofInt (bitwise Nat.land a b))))
  | .bitXor => some (.ok (.expr (.ofInt (bitwise Nat.xor a b))))
  | .shiftL => some (if b < 0 then .error .badShift else shiftUp a b.toNat)
  | .shiftR => some (if b < 0 then .error .badShift else shiftDown a b.toNat)
  | _ => none

/-- Lists and texts can be joined and repeated, which leaves them what they are. -/
def binarySequence (op : BinaryOp) (a b : Value) : Result :=
  match op, a, b with
  | .add, .tuple, .tuple => .ok .tuple
  | .add, .other, .other => .ok .other
  | .mul, a, b =>
    if a.int?.isSome && (b = .tuple || b = .other) then .ok b
    else if b.int?.isSome && (a = .tuple || a = .other) then .ok a
    else .error .badOperand
  | _, _, _ => .error .badOperand

def isLogicalOp : BinaryOp → Bool
  | .bitOr | .bitAnd | .bitXor => true
  | _ => false

def binary (op : BinaryOp) (a b : Value) : Result :=
  match a, b with
  | .expr x, .expr y =>
    match x.int?, y.int? with
    | some m, some n => (binaryInt? op m n).getD (binaryExpr op x y)
    | _, _ => if isLogicalOp op then combine op a b else binaryExpr op x y
  | a, b => if isLogicalOp op then combine op a b else binarySequence op a b

def unary (op : UnaryOp) (v : Value) : Result :=
  match op, v with
  | .plus, .expr e => .ok (.expr e)
  | .minus, .expr e => ofExpr (Expr.negate e)
  | .invert, v =>
    match v.int? with
    | some n => .ok (.expr (.ofInt (-n - 1)))
    | none => if isLogical v then .ok (.formal .noNumber (operands v)) else .error .badOperand
  | _, _ => .error .badOperand

/-! ### Names and calls -/

def ofName (name : Text) : Value :=
  match namedConstant? name with
  | some e => .expr e
  | none => if (Builtin.ofName? name).isSome then .other else .expr (.sym name)

def assignments (formals : List Text) (args : List Expr) (id : Text) : Option Expr :=
  ((formals.zip args).find? fun p => p.1 == id).map (·.2)

def callRoutine (r : Routine) (args : List Expr) : Result :=
  if args.length ≠ r.formals.length then .error .badOperand
  else
    let σ := assignments r.formals args
    match r.body with
    | .expr e => ofExpr (e.replace σ)
    | .relation c a b => relate c (.expr (a.replace σ)) (.expr (b.replace σ))
    | .formal f e => .ok (.formal f (e.replace σ))
    | v => .ok v

def callName (s : Setting Routine) (name : Text) (args : List Expr) : Result :=
  match s.routine? name with
  | some r => callRoutine r args
  | none =>
    match Builtin.ofName? name with
    | some b =>
      match b.call? args with
      | some e => ofExpr e
      | none => .error .badOperand
    | none =>
      if s.symbols.contains name || (namedConstant? name).isSome then .error .badOperand
      else ofExpr (Expr.applyUnknown name (args.foldr Expr.joinPair .zero))

def call (s : Setting Routine) (f : Term) (args : List Value) : Result :=
  match f, exprs? args with
  | .name name, some args => callName s name args
  | _, _ => .error .badOperand

/-! ### Terms -/

mutual

def ofTerm (s : Setting Routine) : Term → Result
  | .name t => .ok (ofName t)
  | .whole n => .ok (.expr (.ofInt n))
  | .decimal d c p => .ok (.expr (decimal d c p))
  | .quoted => .ok .other
  | .tuple ts => do
    let _ ← ofTerms s ts
    return .tuple
  | .display ts => do
    let _ ← ofTerms s ts
    return .other
  | .call f args => do
    let _ ← ofTerm s f
    call s f (← ofTerms s args)
  | .attribute t => do
    let _ ← ofTerm s t
    .error .noNumber
  | .factorial double t => do
    match ← ofTerm s t with
    | .expr e => ofExpr (if double then Expr.doubleFactorial e else Expr.factorial e)
    | _ => .error .badOperand
  | .unary op t => do unary op (← ofTerm s t)
  | .binary op a b => do
    let x ← ofTerm s a
    binary op x (← ofTerm s b)
  | .compare ops ts =>
    match ts with
    | [] => .error .badOperand
    | t :: ts => do ofLinks s (← ofTerm s t) ops ts

def ofTerms (s : Setting Routine) : List Term → Except Fault (List Value)
  | [] => .ok []
  | t :: ts => do
    let v ← ofTerm s t
    return v :: (← ofTerms s ts)

/-- The links of a chain of comparisons, up to the first that does not hold. -/
def ofLinks (s : Setting Routine) (v : Value) : List Comparison → List Term → Result
  | [c], [t] => do relate c v (← ofTerm s t)
  | c :: cs, t :: ts => do
    let w ← ofTerm s t
    let link ← relate c v w
    if ← goesOn link then ofLinks s w cs ts else return link
  | _, _ => .error .badOperand

end

end Value

end Formulary
