import Formulary.Text.Basic

/-! # Built-in functions

The functions that formulas may call, by name.
-/

namespace Formulary

/-- Functions of one argument. Powers of `e` serve as the exponential. -/
inductive Fn where
  | sin | cos | tan | sec | csc | cot | asin | acos | atan
  | sinh | cosh | tanh | coth | asinh | acosh | atanh
  | abs | sign | floor | ceil | log | factorial | doubleFactorial
  deriving DecidableEq, Repr

inductive Builtin where
  | plain (f : Fn)
  | exp | sqrt | cbrt | round | log | log10 | log2 | pow | mod | atan2 | min | max
  deriving DecidableEq, Repr

namespace Builtin

def named : List (String × Builtin) :=
  [("sin", .plain .sin), ("cos", .plain .cos), ("tan", .plain .tan), ("sec", .plain .sec),
   ("csc", .plain .csc), ("cot", .plain .cot), ("asin", .plain .asin), ("acos", .plain .acos),
   ("atan", .plain .atan), ("atan2", .atan2), ("sinh", .plain .sinh), ("cosh", .plain .cosh),
   ("tanh", .plain .tanh), ("asinh", .plain .asinh), ("acosh", .plain .acosh),
   ("atanh", .plain .atanh), ("sqrt", .sqrt), ("cbrt", .cbrt), ("abs", .plain .abs),
   ("sign", .plain .sign), ("floor", .plain .floor), ("ceil", .plain .ceil), ("round", .round),
   ("exp", .exp), ("log", .log), ("ln", .log), ("log10", .log10), ("log2", .log2), ("pow", .pow),
   ("mod", .mod), ("min", .min), ("max", .max)]

def ofName? (name : Text) : Option Builtin := (named.find? fun p => text p.1 == name).map (·.2)

end Builtin

end Formulary
