import Formulary.Proofs.Calc.Lawful
import Formulary.Proofs.Sheet.Reach
import Formulary.Proofs.Sheet.Scope

/-! # What a value depends on

The graph tells which definitions use a parameter, directly or through others. The
values of all others do not change with the parameter, unless a formal has the name
of a function without formals: then evaluation goes where the graph does not.
-/

namespace Formulary.Sheet

open Relation

variable {s t : Sheet} {d e : Definition} {name : Name} {x : Double} {args : List Double}

/-! ### Setting a parameter -/

section

variable [Arithmetic] [LawfulArithmetic]

end

end Formulary.Sheet
