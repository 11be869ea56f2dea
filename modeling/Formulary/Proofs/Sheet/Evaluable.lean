import Formulary.Proofs.Calc.Lawful
import Formulary.Proofs.Eval.Resolution
import Formulary.Proofs.Sheet.Reach
import Formulary.Proofs.Sheet.References
import Formulary.Proofs.Sheet.Scope

/-! # Definitions that can be evaluated

What a sheet lets through, evaluation finds: every name is a parameter, a formal, or
a function that the graph knows of, and as the graph has no cycle, writing functions
out comes to an end. It is otherwise where evaluation takes names in another way than
the graph: for a formal with the name of a function without formals, for a function
with formals that is mentioned without being called, for names that a character glues
together, and for what is quoted.
-/

namespace Formulary.Sheet

open Relation

variable {s t : Sheet} {d e f : Definition} {name : Name} {args : List Double}
  {B : Text → Prop} {active : List Name} {k : Formula.Token}

/-- In a definition and those that it refers to, evaluation takes names as the graph does. -/
structure Plain (s : Sheet) (d : Definition) : Prop where
  unshadowed : s.Unshadowed d
  called : ∀ e ∈ s.definitions.entries, s.Reaches d e → ∀ f ∈ s.definitions.entries,
    f.isAnonymous = false → f.formals ≠ [] → f.name ∉ e.dependencies
  apart : ∀ e ∈ s.definitions.entries, s.Reaches d e →
    ∀ k ∈ Formula.tokens s.reading.lexicon s.definitions.names e.rhs, k.kind = .other →
      ∀ c ∈ k.text, Text.isIdentRest c = false
  unquoted : s.QuotesNothing d

/-! ### Functions are found -/

section

variable [Arithmetic] [LawfulArithmetic]

end

/-- A function without formals, one that mentions it, and one that calls this. -/
def chain : List Action :=
  [.enter (text "h = 2a") false, .enter (text "f(x) = h x") false, .enter (text "g = f(1)") false]

end Formulary.Sheet
