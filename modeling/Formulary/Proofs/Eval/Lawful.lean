import Formulary.Eval.Evaluate
import Formulary.Proofs.Eval.Identifier

/-! # Lawful arithmetic

What evaluation relies on: a symbol that a source text brings in stands in it, routines
bind their formals, and putting numbers in is ordinary substitution. Infinite values are
put in before others, so several of them may have an effect on each other.
-/

namespace Formulary

open Formula (Leads)
open Text (IsName WordIn)

/-- Identifiers that have a meaning in every source text. -/
def IsBuiltin (id : Text) : Prop :=
  (Builtin.ofName? id).isSome = true ∨ id ∈ [text "pi", text "E", text "I"]

/-- The text has no marks of quoted texts. -/
def Unquoted (t : Text) : Prop := ∀ c ∈ t, c ≠ '"' ∧ c ≠ '\''

instance (t : Text) : Decidable (Unquoted t) := List.decidableBAll _ t

/-- The scope with another value for a name. -/
def Scope.withValue (name : Name) (x : Double) (scope : Scope) : Scope :=
  scope.map fun p => if p.1 = name then (name, x) else p

/-- The names of a scope differ. -/
def Scope.Keyed (scope : Scope) : Prop := (scope.map Prod.fst).Nodup

/-- How many values are infinite or undefined. -/
def Scope.infinites (scope : Scope) : Nat := scope.countP fun p => !p.2.isFinite

class LawfulArithmetic [Arithmetic] : Prop where
  /-- Where nothing is quoted, symbols are names without a meaning that are not called, or are
  open in a routine. -/
  symbols_read {s : Setting Arithmetic.Routine} {t id : Text} {e : Arithmetic.Expr}
    (ht : Unquoted t) (h : Arithmetic.read s t = .ok (some e)) (hid : id ∈ Arithmetic.symbols e) :
    (¬ IsBuiltin id ∧ IsName id ∧ ∃ after, WordIn id after t ∧ ¬ Leads after) ∨
      ∃ r ∈ s.routines, id ∈ Arithmetic.free r.2
  /-- Formals are not open in a routine. -/
  free_routine {formals : List Text} {id : Text} {e : Arithmetic.Expr} {r : Arithmetic.Routine}
    (h : Arithmetic.routine formals e = .ok r) (hid : id ∈ Arithmetic.free r) :
    id ∈ Arithmetic.symbols e ∧ id ∉ formals
  /-- Where a symbol does not stand, one finite value is as good as another. -/
  substitute_withValue {e : Arithmetic.Expr} {values : Scope} {id : Text} {x : Double}
    (hid : id ∉ Arithmetic.symbols e) (hx : x.isFinite = true)
    (hvalues : ∀ y, (id, y) ∈ values → y.isFinite = true) :
    Arithmetic.substitute e (values.withValue id x) = Arithmetic.substitute e values
  /-- Values are put in whatever their order. -/
  substitute_perm {e : Arithmetic.Expr} {values values' : Scope} (hperm : values.Perm values')
    (hkeyed : values.Keyed) :
    Arithmetic.substitute e values = Arithmetic.substitute e values'
  /-- Where a symbol does not stand, it needs no value. -/
  substitute_without {e : Arithmetic.Expr} {values : Scope} {id : Text}
    (hid : id ∉ Arithmetic.symbols e) (hkeyed : values.Keyed) (hone : values.infinites ≤ 1) :
    Arithmetic.substitute e (values.filter (·.1 != id)) = Arithmetic.substitute e values

variable {t u : Text}

theorem unquoted_append : Unquoted (t ++ u) ↔ Unquoted t ∧ Unquoted u := List.forall_mem_append

theorem unquoted_flatten {us : List Text} (h : ∀ u ∈ us, Unquoted u) : Unquoted us.flatten := by
  intro c hc
  obtain ⟨u, hu, hc⟩ := List.mem_flatten.mp hc
  exact h u hu c hc

theorem unquoted_brackets (h : Unquoted t) : Unquoted (Repertoire.brackets t) := by
  have hround : Unquoted ['('] ∧ Unquoted [')'] := by simp [Unquoted]
  exact unquoted_append.mpr ⟨unquoted_append.mpr ⟨hround.1, h⟩, hround.2⟩

theorem Text.IsName.unquoted (h : IsName t) : Unquoted t := by
  have hmarks : Text.isIdentRest '"' = false ∧ Text.isIdentRest '\'' = false := by decide +kernel
  intro c hc
  have hrest := h.chars c hc
  constructor <;> rintro rfl <;> simp [hmarks] at hrest

/-- The constants of the usual table are worked out from built-in names. -/
theorem onlyNames_builtin : ∀ c ∈ Lexicon.builtin.constants,
    Text.OnlyNames IsBuiltin c.expression ∧ Unquoted c.expression := by
  have hname {w : Text} (hw : w.all Text.isIdentRest = true)
      (hin : w ∈ [text "pi", text "E", text "I"]) : Text.OnlyNames IsBuiltin w :=
    .word hw (Or.inr hin)
  have hpi := hname (by decide +kernel) (List.mem_cons_self : text "pi" ∈ _)
  have htau : Text.OnlyNames IsBuiltin (text "2*" ++ text "pi") :=
    hpi.of_not_start (Text.eq_false_of_any (by decide +kernel))
  have hquotes : ∀ c ∈ Lexicon.builtin.constants, Unquoted c.expression := by decide +kernel
  intro c hc
  refine ⟨?_, hquotes c hc⟩
  simp only [Lexicon.builtin, Lexicon.builtinConstants, List.mem_cons, List.not_mem_nil,
    or_false] at hc
  rcases hc with rfl | rfl | rfl | rfl
  · exact hpi
  · exact htau
  · exact hname (by decide +kernel) (by simp)
  · exact hname (by decide +kernel) (by simp)

end Formulary
