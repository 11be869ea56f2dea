import Formulary.Calc.Lexeme

/-! # Terms

The grammar of arithmetic source text: comparisons, binary operators by level,
signs, powers to the right, calls, factorial marks and groups. A text that does
not fit the grammar has no term.
-/

namespace Formulary

inductive Comparison where
  | less | lessEq | greater | greaterEq | equal | notEqual
  deriving DecidableEq, Repr

inductive BinaryOp where
  | add | sub | mul | div | floorDiv | mod | matmul | pow | bitOr | bitXor | bitAnd | shiftL
    | shiftR
  deriving DecidableEq, Repr

inductive UnaryOp where
  | plus | minus | invert
  deriving DecidableEq, Repr

/-- `quoted` is a text or a mark that is no number; `display` lists members in braces. -/
inductive Term where
  | name (t : Text)
  | whole (n : Nat)
  | decimal (digits count : Nat) (power : Int)
  | quoted
  | tuple (ts : List Term)
  | display (ts : List Term)
  | call (f : Term) (args : List Term)
  | attribute (t : Term)
  | factorial (double : Bool) (t : Term)
  | unary (op : UnaryOp) (t : Term)
  | binary (op : BinaryOp) (a b : Term)
  | compare (ops : List Comparison) (ts : List Term)

namespace Term

def comparison? (o : Text) : Option Comparison :=
  if o = text "<" then some .less
  else if o = text "<=" then some .lessEq
  else if o = text ">" then some .greater
  else if o = text ">=" then some .greaterEq
  else if o = text "==" then some .equal
  else if o = text "!=" then some .notEqual
  else none

/-- The level of signs; operators of a higher level bind tighter. -/
def signLevel : Nat := 8

def lowestLevel : Nat := 2

def binaryOps : List (Text × Nat × BinaryOp) :=
  [(text "|", 2, .bitOr), (text "^", 3, .bitXor), (text "&", 4, .bitAnd), (text "<<", 5, .shiftL),
   (text ">>", 5, .shiftR), (text "+", 6, .add), (text "-", 6, .sub), (text "*", 7, .mul),
   (text "/", 7, .div), (text "//", 7, .floorDiv), (text "%", 7, .mod), (text "@", 7, .matmul),
   (text "**", 9, .pow)]

def binaryOp? (o : Text) : Option (Nat × BinaryOp) :=
  (binaryOps.find? fun p => p.1 == o).map (·.2)

def unaryOp? (o : Text) : Option UnaryOp :=
  if o = ['-'] then some .minus
  else if o = ['+'] then some .plus
  else if o = ['~'] then some .invert
  else none

/-- Neighbouring quoted texts are one. -/
def dropQuoted : List Lexeme → List Lexeme
  | .quoted :: rest => dropQuoted rest
  | ls => ls

def bangs : List Lexeme → Nat × List Lexeme
  | .bang :: rest =>
    let (n, after) := bangs rest
    (n + 1, after)
  | ls => (0, ls)

/-- The level on the right side of an operator: powers group to the right. -/
def rightLevel (level : Nat) (op : BinaryOp) : Nat := if op = .pow then signLevel else level + 1

/-- One member without a comma is that member. -/
def group (ts : List Term) (comma : Bool) : Term :=
  match ts, comma with
  | [t], false => t
  | ts, _ => .tuple ts

mutual

def expression? : Nat → List Lexeme → Option (Term × List Lexeme)
  | 0, _ => none
  | fuel + 1, ls => do
    let (t, rest) ← operation? fuel lowestLevel ls
    let (ops, ts, rest) ← comparisons? fuel rest
    return (if ops.isEmpty then t else .compare ops (t :: ts), rest)

def comparisons? : Nat → List Lexeme → Option (List Comparison × List Term × List Lexeme)
  | 0, _ => none
  | fuel + 1, ls =>
    match ls with
    | .op o :: rest =>
      match comparison? o with
      | some c => do
        let (t, rest) ← operation? fuel lowestLevel rest
        let (ops, ts, rest) ← comparisons? fuel rest
        return (c :: ops, t :: ts, rest)
      | none => some ([], [], ls)
    | ls => some ([], [], ls)

/-- Operators of the level and above. -/
def operation? : Nat → Nat → List Lexeme → Option (Term × List Lexeme)
  | 0, _, _ => none
  | fuel + 1, level, ls => do
    let (t, rest) ← signed? fuel ls
    operators? fuel level t rest

def signed? : Nat → List Lexeme → Option (Term × List Lexeme)
  | 0, _ => none
  | fuel + 1, ls =>
    match ls with
    | .op o :: rest =>
      match unaryOp? o with
      | some u => do
        let (t, rest) ← operation? fuel signLevel rest
        return (.unary u t, rest)
      | none => primary? fuel ls
    | ls => primary? fuel ls

/-- Goes on after a left operand. -/
def operators? : Nat → Nat → Term → List Lexeme → Option (Term × List Lexeme)
  | 0, _, _, _ => none
  | fuel + 1, level, t, ls =>
    match ls with
    | .op o :: rest =>
      match binaryOp? o with
      | some (l, op) =>
        if l < level then some (t, ls)
        else do
          let (u, rest) ← operation? fuel (rightLevel l op) rest
          operators? fuel level (.binary op t u) rest
      | none => some (t, ls)
    | ls => some (t, ls)

def primary? : Nat → List Lexeme → Option (Term × List Lexeme)
  | 0, _ => none
  | fuel + 1, ls =>
    match ls with
    | .name t :: rest => endings? fuel (.name t) rest
    | .whole n :: rest => endings? fuel (.whole n) rest
    | .decimal d c p :: rest => endings? fuel (.decimal d c p) rest
    | .quoted :: rest => endings? fuel .quoted (dropQuoted rest)
    | .op o :: rest =>
      if o = text "..." then endings? fuel .quoted rest
      else if o = ['('] then do
        let (ts, comma, rest) ← members? fuel [')'] rest
        endings? fuel (group ts comma) rest
      else if o = ['\x7b'] then do
        let (ts, rest) ← displayed? fuel rest
        endings? fuel (.display ts) rest
      else none
    | _ => none

/-- Calls, attributes and factorial marks after a primary. -/
def endings? : Nat → Term → List Lexeme → Option (Term × List Lexeme)
  | 0, _, _ => none
  | fuel + 1, t, ls =>
    match ls with
    | .bang :: _ =>
      let (n, rest) := bangs ls
      if n ≤ 2 then endings? fuel (.factorial (n == 2) t) rest else none
    | .op ['('] :: rest => do
      let (args, _, rest) ← members? fuel [')'] rest
      endings? fuel (.call t args) rest
    | .op ['.'] :: .name _ :: rest => endings? fuel (.attribute t) rest
    | ls => some (t, ls)

/-- Expressions with commas up to a closing bracket, and whether the last has a comma. -/
def members? : Nat → Text → List Lexeme → Option (List Term × Bool × List Lexeme)
  | 0, _, _ => none
  | fuel + 1, close, ls =>
    match ls with
    | .op o :: rest =>
      if o = close then some ([], false, rest) else member? fuel close ls
    | ls => member? fuel close ls

def member? : Nat → Text → List Lexeme → Option (List Term × Bool × List Lexeme)
  | 0, _, _ => none
  | fuel + 1, close, ls => do
    let (t, rest) ← expression? fuel ls
    match rest with
    | .op o :: rest =>
      if o = close then return ([t], false, rest)
      else if o = [','] then
        let (ts, comma, rest) ← members? fuel close rest
        return (t :: ts, comma || ts.isEmpty, rest)
      else none
    | _ => none

/-- The members of braces: expressions, or pairs with a colon. -/
def displayed? : Nat → List Lexeme → Option (List Term × List Lexeme)
  | 0, _ => none
  | fuel + 1, ls =>
    match ls with
    | .op ['\x7d'] :: rest => some ([], rest)
    | ls => do
      let (t, rest) ← expression? fuel ls
      let (ts, rest) ← match rest with
        | .op [':'] :: rest => do
          let (u, rest) ← expression? fuel rest
          pure ([t, u], rest)
        | rest => pure ([t], rest)
      match rest with
      | .op ['\x7d'] :: rest => return (ts, rest)
      | .op [','] :: rest => do
        let (us, rest) ← displayed? fuel rest
        return (ts ++ us, rest)
      | _ => none

end

def toEnd? : Nat → List Lexeme → Option (List Term × Bool)
  | 0, _ => none
  | fuel + 1, ls => do
    let (t, rest) ← expression? fuel ls
    match rest with
    | [] | [.lineEnd] => return ([t], false)
    | .op [','] :: rest =>
      if rest = [] || rest = [.lineEnd] then return ([t], true)
      else
        let (ts, comma) ← toEnd? fuel rest
        return (t :: ts, comma)
    | _ => none

def fuelFor (ls : List Lexeme) : Nat := 12 * ls.length + 24

def ofText? (t : Text) : Option Term := do
  let ls ← Lexeme.ofText? t
  let (ts, comma) ← toEnd? (fuelFor ls) ls
  return group ts (comma || 1 < ts.length)

end Term

end Formulary
