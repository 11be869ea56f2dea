import Formulary.Proofs.Calc.Lawful
import Formulary.Proofs.Calc.Rename.Lexeme
import Formulary.Proofs.Calc.Respell.Place
import Formulary.Proofs.Calc.Respell.Value
import Formulary.Proofs.Eval.Renamed

/-! # The calculator under another name

Expressions keep their members in the order of identifiers, and what is rounded on the way
depends on that. So the calculator works alike under another name where this has the place
of the old one among the names that are met.
-/

namespace Formulary

open Identifier (ofName)
open Text (Reworded Words)

variable {ρ : Respelling} {s s' : Setting Routine} {W : Text → Prop} {m n p q : Name} {t u w : Text}
  {e : Expr}

/-! ### Names -/

theorem builtin_ofName (name : Name) : Builtin.ofName? (ofName name) = none := by
  have hnone := not_isBuiltin_ofName name
  rw [IsBuiltin, not_or] at hnone
  simpa using hnone.1

theorem namedConstant_ofName (name : Name) : namedConstant? (ofName name) = none := by
  have hall : ∀ p ∈ namedConstants, (text "s_").isPrefixOf (text p.1) = false := by decide
  have hgolden : ofName name ≠ text "GoldenRatio" := fun h =>
    absurd (congrArg List.head? h) (by simp [ofName, text])
  rw [namedConstant?, if_neg hgolden]
  refine Option.map_eq_none_iff.mpr (List.find?_eq_none.mpr fun p hp hname => ?_)
  have hpre := hall p hp
  rw [beq_iff_eq.mp hname] at hpre
  exact absurd hpre (by simp [ofName])

theorem Value.respell_ofName (hconstant : namedConstant? (ρ.spell w) = namedConstant? w)
    (hbuiltin : Builtin.ofName? (ρ.spell w) = Builtin.ofName? w) :
    (Value.ofName w).respell ρ = Value.ofName (ρ.spell w) := by
  have hclosed := respell_namedConstant? (ρ := ρ) w
  rw [Value.ofName, Value.ofName, hconstant, hbuiltin]
  cases hc : namedConstant? w with
  | some e =>
    rw [hc] at hclosed
    exact congrArg Value.expr (Option.some.inj hclosed)
  | none =>
    dsimp only
    split <;> rfl

namespace Calculator

/-! ### Reading -/

theorem isSingle_respell (v : Value) : isSingle (v.respell ρ) = isSingle v := by
  cases v <;> rfl

/-- A text with another word is read as the same value, respelled, if its names stand for that. -/
theorem read_reworded (h : Reworded W m n false t u)
    (hW : ∀ id, W id → Value.Renames ρ s s' (swapName m n) id) :
    read s' u = (read s t).map (Option.map (Value.respell ρ)) := by
  have hterm := Term.ofText?_rename (Lexeme.ofText?_reworded h)
  unfold read
  rw [hterm]
  cases ht : Term.ofText? t with
  | none => rfl
  | some term =>
    obtain ⟨ls, hls, -, hamong⟩ := Term.read_of_ofText? ht
    have hvalue : Value.ofTerm s' (term.rename (swapName m n)) =
        Value.respellResult ρ (Value.ofTerm s term) :=
      Value.ofTerm_rename term fun id hid => hW id (Lexeme.known_of_ofText? h hls (hamong hid))
    simp only [Option.map_some, hvalue]
    cases Value.ofTerm s term with
    | error f => rfl
    | ok v =>
      simp only [Value.respellResult_ok, Except.map, Except.mapError, isSingle_respell]
      split <;> rfl

theorem length_lt_ofName (t : Text) : t.length < (ofName t).length := by
  have hencode : t.length ≤ (Identifier.encode t).length := by
    induction t with
    | nil => exact Nat.zero_le _
    | cons c t ih =>
      have hpos := List.length_pos_iff.mpr (Identifier.encodeChar_ne_nil (c := c))
      rw [Identifier.encode_cons, List.length_append, List.length_cons]
      omega
  rw [ofName, List.length_append]
  exact Nat.lt_of_le_of_lt hencode (Nat.lt_add_of_pos_left (by decide))

/-- A text is too short to have the identifier that is made of it. -/
theorem reworded_self (h : Words W t) :
    Reworded (fun id => W id ∧ id ≠ ofName t) t t false t t := by
  refine Text.reworded_of_words (fun x after hx hword => ⟨h x after hx hword, ?_⟩) (by simp)
  rintro rfl
  obtain ⟨-, -, before, ht, -⟩ := hword
  have hlength := congrArg List.length ht
  have hless := length_lt_ofName t
  rw [List.length_append, List.length_append] at hlength
  omega

theorem read_same (hroutines : s'.routines = s.routines)
    (ht : Words (fun id => id ∈ s'.symbols ↔ id ∈ s.symbols) t) : read s' t = read s t := by
  have hroutine? (id : Text) : s'.routine? id = s.routine? id := by
    rw [Setting.routine?, Setting.routine?, hroutines]
  have hread : read s' t = (read s t).map (Option.map (Value.respell .refl)) := by
    refine read_reworded (reworded_self ht) fun id hid => ?_
    constructor
    · rw [swapName_self, Value.respell_refl]
    · intro args
      rw [swapName_self]
      exact Value.callName_respell (hroutine? id) hid.1 (fun _ _ _ _ => Or.inr rfl) args
  rw [hread]
  cases read s t with
  | error f => rfl
  | ok v => cases v <;> simp [Except.map]

/-- A word has the same meaning in both settings. -/
theorem renames_of_known (hroutines : s'.routines = s.routines)
    (hids : ∀ r ∈ s.routines, r.1 ≠ ofName p ∧ r.1 ≠ ofName q)
    (hfree : ∀ r ∈ s.routines, ∀ id ∈ r.2.body.symbols, id ∈ r.2.formals ∨ ρ.spell id = id)
    (hspell : ρ.spell w = swapName p q w) (hknown : ρ.spell w ∈ s'.symbols ↔ w ∈ s.symbols)
    (hp : w = ofName p → w ∈ s.symbols) : Value.Renames ρ s s' (swapName p q) w := by
  have hroutine? (id : Text) : s'.routine? id = s.routine? id := by
    rw [Setting.routine?, Setting.routine?, hroutines]
  have hnone (n : Name) (hn : ∀ r ∈ s.routines, r.1 ≠ ofName n) : s.routine? (ofName n) = none :=
    Option.map_eq_none_iff.mpr (List.find?_eq_none.mpr fun r hr hid => hn r hr (beq_iff_eq.mp hid))
  by_cases hid : w = ofName p
  · subst hid
    have hswap : swapName p q (ofName p) = ofName q := if_pos rfl
    have hin := hknown.mpr (hp rfl)
    rw [hspell, hswap] at hin
    constructor
    · rw [Value.respell_ofName, hspell]
      · rw [hspell, hswap, namedConstant_ofName, namedConstant_ofName]
      · rw [hspell, hswap, builtin_ofName, builtin_ofName]
    · intro args
      rw [hswap, Value.callName_of_mem (hp rfl) (hnone p fun r hr => (hids r hr).1)
          (builtin_ofName p),
        Value.callName_of_mem hin ((hroutine? _).trans (hnone q fun r hr => (hids r hr).2))
          (builtin_ofName q)]
      rfl
  · have hswap : swapName p q w = w := if_neg hid
    rw [hspell, hswap] at hknown
    rw [hswap] at hspell
    constructor
    · rw [hswap, Value.respell_ofName (by rw [hspell]) (by rw [hspell]), hspell]
    · intro args
      rw [hswap]
      refine Value.callName_respell (hroutine? w) hknown (fun r hr => ?_) args
      obtain ⟨x, hx, rfl⟩ := Option.map_eq_some_iff.mp hr
      exact hfree x (List.mem_of_find?_eq_some hx)

/-! ### Working out -/

theorem putAll_respell (values : List (Text × Scalar)) (e : Expr) :
    putAll (values.map (Prod.map ρ.spell id)) (e.respell ρ) = (putAll values e).respell ρ := by
  induction values generalizing e with
  | nil => rfl
  | cons x values ih =>
    show putAll (values.map _) ((e.respell ρ).put (ρ.spell x.1) x.2) =
        (putAll values (e.put x.1 x.2)).respell ρ
    rw [← Expr.respell_put, ih]

theorem settled_respell (e : Expr) : settled (e.respell ρ) = (settled e).map (Expr.respell ρ) := by
  cases e <;> rfl

theorem substitute_respell (values : List (Text × Scalar)) (v : Value) :
    substitute (values.map (Prod.map ρ.spell id)) (v.respell ρ) =
      Value.respellResult ρ (substitute values v) := by
  cases v with
  | expr e =>
    simp only [substitute, Value.respell, putAll_respell, settled_respell]
    cases settled (putAll values e) <;> rfl
  | relation c a b =>
    simp only [substitute, Value.respell, putAll_respell, settled_respell]
    cases settled (putAll values a) with
    | error f => rfl
    | ok a =>
      cases settled (putAll values b) with
      | error f => rfl
      | ok b => exact Value.relate_respell c (.expr a) (.expr b)
  | formal f e => cases f <;> rfl
  | _ => rfl

theorem result_of_not_infinite (h : ∀ s, e ≠ .num (.infinite s)) :
    result e = if e.hasSingular then ⟨true, none⟩
      else match e.estimate?.or e.value? with
        | none => ⟨e.isConstant, none⟩
        | some z => ⟨false, some (Sampling.toDouble z.re, Sampling.toDouble z.im)⟩ := by
  unfold result
  split
  · exact absurd rfl (h _)
  · rfl

theorem result_respell (e : Expr) : result (e.respell ρ) = result e := by
  by_cases h : ∃ s, e = .num (.infinite s)
  · obtain ⟨s, rfl⟩ := h
    rfl
  · have h := not_exists.mp h
    have h' (s : Bool) : e.respell ρ ≠ .num (.infinite s) := fun heq =>
      h s (Expr.of_respell_eq_num heq)
    rw [result_of_not_infinite h, result_of_not_infinite h', Expr.hasSingular_respell,
      Expr.estimate?_respell, Expr.value?_respell, Expr.isConstant_respell]

theorem approximate_respell (v : Value) : approximate (v.respell ρ) = approximate v := by
  cases v with
  | expr e => exact congrArg Except.ok (result_respell e)
  | _ => rfl

theorem inTurn_respell (values : List (Text × Scalar)) :
    inTurn (values.map (Prod.map ρ.spell id)) = (inTurn values).map (Prod.map ρ.spell id) :=
  inTurn_map (fun _ _ _ _ => (ρ.le_spell _ _).symm) fun _ _ => rfl

theorem compute_respell (v : Value) (values : List (Text × Double)) :
    Repertoire.compute (v.respell ρ) (values.map (Prod.map ρ.spell id)) =
      Repertoire.compute v values := by
  have hvalues : (values.map (Prod.map ρ.spell id)).map (fun p => (p.1, Scalar.ofDouble p.2)) =
      (values.map fun p => (p.1, Scalar.ofDouble p.2)).map (Prod.map ρ.spell id) := by
    rw [List.map_map, List.map_map]
    rfl
  show ((substitute (inTurn ((values.map _).map _)) (v.respell ρ)).mapError _ >>= _) =
    ((substitute (inTurn (values.map _)) v).mapError _ >>= _)
  rw [hvalues, inTurn_respell, substitute_respell]
  cases substitute (inTurn (values.map fun p => (p.1, Scalar.ofDouble p.2))) v with
  | error f => rfl
  | ok v => exact congrArg (Except.mapError Fault.failure) (approximate_respell v)

/-- The calculator works alike under a respelling that has the one name for the other. -/
def renamingOf (ρ : Respelling) (h : ρ.spell (ofName p) = ofName q) : Renaming p q where
  spell := ρ.spell
  rename := Value.respell ρ
  spell_injective _ _ := ρ.spell_inj.mp
  spell_ofName := h
  symbols_rename := Value.symbols_respell
  read_same := read_same
  read_rename hu _ hroutines hids hfree hW := by
    refine congrArg (Except.mapError Failure.kind) (read_reworded hu fun w hw => ?_)
    obtain ⟨hspell, hknown, hp⟩ := hW w hw
    refine renames_of_known hroutines hids (fun r hr id hid => ?_) hspell hknown hp
    by_cases hin : id ∈ r.2.formals
    · exact Or.inl hin
    · exact Or.inr (hfree r hr id (List.mem_filter.mpr ⟨hid, by simpa using hin⟩))
  compute_rename e values := congrArg (Except.mapError Failure.kind) (compute_respell e values)

/-! ### Names that have the same place -/

/-- The words of arithmetic itself. -/
def builtinWords : List Text :=
  Builtin.named.map (fun b => text b.1) ++ [text "pi", text "E", text "I"]

theorem mem_builtinWords (h : IsBuiltin w) : w ∈ builtinWords := by
  rcases h with h | h
  · rw [Builtin.ofName?, Option.isSome_map, List.find?_isSome] at h
    obtain ⟨b, hb, hname⟩ := h
    exact List.mem_append_left _ (List.mem_map.mpr ⟨b, hb, beq_iff_eq.mp hname⟩)
  · exact List.mem_append_right _ h

theorem le_append_congr {pre : Text} (h : pre.isPrefixOf t = false) (a b : Text) :
    Text.le t (pre ++ a) = Text.le t (pre ++ b) := by
  induction pre generalizing t with
  | nil => simp at h
  | cons c pre ih =>
    cases t with
    | nil => rfl
    | cons e t =>
      rw [List.cons_append, List.cons_append, Bool.eq_iff_iff, Text.le_cons, Text.le_cons]
      refine or_congr_right (and_congr_right fun hc => ?_)
      subst hc
      rw [ih (by simpa using h)]

theorem nul_not_mem_ofName (n : Name) : Text.nul ∉ ofName n := by
  intro h
  rcases List.mem_append.mp h with h | h
  · exact absurd h (by decide)
  · rcases Identifier.plain_or_underscore_of_mem_encode h with h | h
    · exact absurd h (by decide)
    · exact absurd h (by decide)

/-- A word that is not taken for the identifier of a name. -/
structure IsPlainWord (w : Text) : Prop where
  nul : Text.nul ∉ w
  mark : (text "s_").isPrefixOf w = false

theorem isPlainWord_routineId (n : Name) : IsPlainWord (Repertoire.routineId n) := by
  refine ⟨fun h => ?_, rfl⟩
  rcases List.mem_append.mp h with h | h
  · exact absurd h (by decide)
  · exact nul_not_mem_ofName n h

theorem isPlainWord_of_builtin (h : w ∈ builtinWords) : IsPlainWord w := by
  have hall : ∀ w ∈ builtinWords, Text.nul ∉ w ∧ (text "s_").isPrefixOf w = false := by decide
  exact ⟨(hall w h).1, (hall w h).2⟩

/-- Where two names have one place among some, the calculator works alike with the one for the
other, and leaves those names and other words as they are. -/
theorem exists_renaming {names : List Name} {words : List Text}
    (hwords : ∀ w ∈ words, IsPlainWord w) (hp : p ∉ names) (hq : q ∉ names)
    (hplace : ∀ n ∈ names, Text.le (ofName n) (ofName p) = Text.le (ofName n) (ofName q)) :
    ∃ ρ : Renaming p q,
      (∀ n ∈ names, ρ.spell (ofName n) = ofName n) ∧ ∀ w ∈ words, ρ.spell w = w := by
  have hnot {n : Name} (hn : n ∉ names) : ofName n ∉ names.map ofName ++ words := by
    intro h
    rcases List.mem_append.mp h with h | h
    · obtain ⟨m, hm, heq⟩ := List.mem_map.mp h
      exact hn (Identifier.ofName_inj.mp heq ▸ hm)
    · exact absurd (hwords _ h).mark (by simp [ofName])
  have hnul : ∀ w ∈ names.map ofName ++ words, Text.nul ∉ w :=
    List.forall_mem_append.mpr ⟨List.forall_mem_map.mpr fun n _ => nul_not_mem_ofName n,
      fun w hw => (hwords w hw).nul⟩
  have hall : ∀ w ∈ names.map ofName ++ words, Text.le w (ofName p) = Text.le w (ofName q) :=
    List.forall_mem_append.mpr ⟨List.forall_mem_map.mpr hplace,
      fun w hw => le_append_congr (hwords w hw).mark _ _⟩
  obtain ⟨ρ, hρ, hfixed⟩ := Respelling.exists_spell_eq hnul (nul_not_mem_ofName q)
    (by simp [ofName, text]) (hnot hp) (hnot hq) hall
  exact ⟨renamingOf ρ hρ, fun n hn => hfixed _ (List.mem_append_left _ (List.mem_map_of_mem hn)),
    fun w hw => hfixed w (List.mem_append_right _ hw)⟩

end Calculator

end Formulary
