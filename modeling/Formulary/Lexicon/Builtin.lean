import Formulary.Lexicon.Basic

/-! # The built-in lexicon

The Greek alphabet, four constants, the usual functions, and commands for
operators. Of the bare words two-letter ones are left out, `pi` excepted: `mu`
is as likely to mean `m` times `u`.
-/

namespace Formulary.Lexicon

def greek : List (String × Char) :=
  [("alpha", 'α'), ("beta", 'β'), ("gamma", 'γ'), ("delta", 'δ'), ("epsilon", 'ε'), ("zeta", 'ζ'),
   ("eta", 'η'), ("theta", 'θ'), ("iota", 'ι'), ("kappa", 'κ'), ("lambda", 'λ'), ("mu", 'μ'),
   ("nu", 'ν'), ("xi", 'ξ'), ("omicron", 'ο'), ("pi", 'π'), ("rho", 'ρ'), ("sigma", 'σ'),
   ("tau", 'τ'), ("upsilon", 'υ'), ("phi", 'φ'), ("chi", 'χ'), ("psi", 'ψ'), ("omega", 'ω'),
   ("Gamma", 'Γ'), ("Delta", 'Δ'), ("Theta", 'Θ'), ("Lambda", 'Λ'), ("Xi", 'Ξ'), ("Pi", 'Π'),
   ("Sigma", 'Σ'), ("Upsilon", 'Υ'), ("Phi", 'Φ'), ("Psi", 'Ψ'), ("Omega", 'Ω'),
   ("varepsilon", 'ε'), ("vartheta", 'ϑ'), ("varphi", 'φ'), ("varpi", 'ϖ'), ("varrho", 'ϱ'),
   ("varsigma", 'ς')]

def wordList : List String :=
  ["pi", "tau", "alpha", "beta", "gamma", "delta", "epsilon", "theta", "lambda", "sigma", "omega",
   "phi", "Gamma", "Delta", "Theta", "Lambda", "Sigma", "Omega", "Phi"]

def functionList : List String :=
  ["sin", "cos", "tan", "sec", "csc", "cot", "asin", "acos", "atan", "atan2", "sinh", "cosh",
   "tanh", "asinh", "acosh", "atanh", "sqrt", "cbrt", "abs", "sign", "floor", "ceil", "round",
   "exp", "log", "log10", "log2", "ln", "pow", "mod", "min", "max"]

def commandList : List (String × String) :=
  [("cdot", "*"), ("times", "*"), ("le", "<="), ("leq", "<="), ("ge", ">="), ("geq", ">="),
   ("arcsin", "asin"), ("arccos", "acos"), ("arctan", "atan"), ("sin", "sin"), ("cos", "cos"),
   ("tan", "tan"), ("sec", "sec"), ("csc", "csc"), ("cot", "cot"), ("sinh", "sinh"),
   ("cosh", "cosh"), ("tanh", "tanh"), ("exp", "exp"), ("log", "log"), ("ln", "ln"),
   ("sqrt", "sqrt"), ("min", "min"), ("max", "max")]

def builtinConstants : List Constant :=
  [⟨text "π", false, text "pi", true⟩, ⟨text "τ", false, text "2*pi", true⟩,
   ⟨text "e", false, text "E", true⟩, ⟨text "i", true, text "I", true⟩]

def builtin : Lexicon where
  aliases := greek.map fun p => ('\\' :: text p.1, [p.2])
  bareWords := wordList.filterMap fun w =>
    (greek.find? fun p => p.1 == w).map fun p => (text w, [p.2])
  constants := builtinConstants
  functions := functionList.map text
  commands := commandList.map fun p => ('\\' :: text p.1, text p.2)

end Formulary.Lexicon
