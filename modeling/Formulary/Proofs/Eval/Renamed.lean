import Formulary.Proofs.Eval.Resolution
import Formulary.Proofs.Eval.Reworded
import Formulary.Proofs.Eval.Scope
import Formulary.Proofs.Formula.Renamed

/-! # Formulas read under another name

Two repertoires may go into the same functions from some formulas. Such a formula, and the
one with another name for a formal, are written out side by side: the text has the word for
the other name, the same routines are at hand, and arithmetic that works alike under the
other name reads both as one expression. Functions on the way do not mention the formal, so
what is written of them is the same.
-/

namespace Formulary

open Identifier (ofName)
open Text (IsName Reworded Stops Words isIdentRest)

/-- What an error tells, texts and names apart. -/
def EvalError.cause (e : EvalError) : Option String × Option Failure.Kind :=
  (e.code?, match e with
    | .stopped f => some f.kind
    | _ => none)

/-- Arithmetic works alike for symbols that are spelled in another way, with `q` for `p`. -/
structure Renaming [Arithmetic] (p q : Name) where
  spell : Text → Text
  rename : Arithmetic.Expr → Arithmetic.Expr
  spell_injective : Function.Injective spell
  spell_ofName : spell (ofName p) = ofName q
  symbols_rename (e : Arithmetic.Expr) :
    Arithmetic.symbols (rename e) = (Arithmetic.symbols e).map spell
  /-- A text is read the same wherever its words are known alike. -/
  read_same {s s' : Setting Arithmetic.Routine} {t : Text} (hroutines : s'.routines = s.routines)
    (ht : Words (fun id => id ∈ s'.symbols ↔ id ∈ s.symbols) t) :
    Arithmetic.read s' t = Arithmetic.read s t
  /-- With the one name for the other a text is read as the same expression, renamed. -/
  read_rename {s s' : Setting Arithmetic.Routine} {W : Text → Prop} {t u : Text}
    (hu : Reworded W p q false t u) (ht : Unquoted t) (hroutines : s'.routines = s.routines)
    (hids : ∀ r ∈ s.routines, r.1 ≠ ofName p ∧ r.1 ≠ ofName q)
    (hfree : ∀ r ∈ s.routines, ∀ id ∈ Arithmetic.free r.2, spell id = id)
    (hW : ∀ id, W id → spell id = swapName p q id ∧
      (spell id ∈ s'.symbols ↔ id ∈ s.symbols) ∧ (id = ofName p → id ∈ s.symbols)) :
    (Arithmetic.read s' u).mapError Failure.kind =
      ((Arithmetic.read s t).map (Option.map rename)).mapError Failure.kind
  compute_rename (e : Arithmetic.Expr) (values : List (Text × Double)) :
    (Repertoire.compute (rename e) (values.map (Prod.map spell id))).mapError Failure.kind =
      (Repertoire.compute e values).mapError Failure.kind

/-! ### Names of arithmetic -/

theorem not_isBuiltin_ofName (name : Name) : ¬ IsBuiltin (ofName name) := by
  have hall : ∀ p ∈ Builtin.named, (text "s_").isPrefixOf (text p.1) = false := by decide
  rintro (h | h)
  · obtain ⟨p, hp, hname⟩ := List.find?_isSome.mp ((Option.isSome_map ..).symm.trans h)
    have hpre := hall p hp
    rw [beq_iff_eq.mp hname] at hpre
    exact absurd hpre (by simp [ofName])
  · rcases List.mem_cons.mp h with h | h
    · exact absurd (congrArg List.head? h) (by simp [ofName, text])
    · rcases List.mem_cons.mp h with h | h
      · exact absurd (congrArg List.head? h) (by simp [ofName, text])
      · exact absurd (congrArg List.head? (List.mem_singleton.mp h)) (by simp [ofName, text])

theorem swapName_self (p : Name) (id : Text) : swapName p p id = id := by
  unfold swapName
  split
  · exact Eq.symm ‹_›
  · rfl

namespace Repertoire

open Formula (Token tokens SameBut)

theorem routineId_ne_ofName (name m : Name) : routineId name ≠ ofName m := fun h =>
  absurd (congrArg List.head? h) (by simp [routineId, ofName, text])

variable [Arithmetic] {r r' : Repertoire} {B W : Text → Prop} {R : List Name → Text → Prop}
  {formals active : List Name} {m n p name : Name} {s s' t t' : Bindings} {u u' formula : Text}
  {w : Text}

/-! ### Two settings -/

/-- Settings of two formulas that are written out side by side. They have the same routines, and
know symbols for names only. -/
structure Tied (s s' : Bindings) : Prop where
  routines : s'.routines = s.routines
  ids : ∀ r ∈ s.routines, ∃ name, r.1 = routineId name
  named : ∀ id, id ∈ s.symbols ∨ id ∈ s'.symbols → ∃ k, id = ofName k

/-- Later settings, in which more is known. -/
structure Onward (s s' t t' : Bindings) : Prop where
  tied : Tied t t'
  left : s.symbols ⊆ t.symbols
  right : s'.symbols ⊆ t'.symbols

theorem tied_empty : Tied (.empty : Bindings) .empty :=
  ⟨rfl, nofun, fun _ h => absurd h (by simp [Setting.empty])⟩

theorem Tied.refl (h : Tied s s') : Onward s s' s s' :=
  ⟨h, List.Subset.refl _, List.Subset.refl _⟩

theorem Onward.trans {v v' : Bindings} (h : Onward s s' t t') (h' : Onward t t' v v') :
    Onward s s' v v' :=
  ⟨h'.tied, List.Subset.trans h.left h'.left, List.Subset.trans h.right h'.right⟩

theorem Tied.routine?_eq (h : Tied s s') (id : Text) : s'.routine? id = s.routine? id := by
  rw [Setting.routine?, Setting.routine?, h.routines]

theorem mem_symbols_meet {more : Text} :
    w ∈ (meet s more).symbols ↔ w ∈ s.symbols ∨ w = more := by
  unfold meet
  split
  · have hin : more ∈ s.symbols := List.contains_iff_mem.mp ‹_›
    exact ⟨Or.inl, fun h => h.elim (fun h => h) fun heq => heq ▸ hin⟩
  · simp

theorem Tied.meet (h : Tied s s') (k k' : Name) :
    Onward s s' (Repertoire.meet s (ofName k)) (Repertoire.meet s' (ofName k')) where
  tied := {
    routines := by rw [routines_meet, routines_meet, h.routines]
    ids := routines_meet s _ ▸ h.ids
    named id hid := by
      rw [mem_symbols_meet, mem_symbols_meet] at hid
      rcases hid with (hid | hid) | hid | hid
      · exact h.named id (Or.inl hid)
      · exact ⟨k, hid⟩
      · exact h.named id (Or.inr hid)
      · exact ⟨k', hid⟩ }
  left _ hid := mem_symbols_meet.mpr (Or.inl hid)
  right _ hid := mem_symbols_meet.mpr (Or.inl hid)

/-- The setting with one more routine. -/
def withRoutine (s : Bindings) (id : Text) (made : Arithmetic.Routine) : Bindings :=
  { s with routines := s.routines ++ [(id, made)] }

theorem Tied.withRoutine (h : Tied s s') (name : Name) (made : Arithmetic.Routine) :
    Onward s s' (Repertoire.withRoutine s (routineId name) made)
      (Repertoire.withRoutine s' (routineId name) made) where
  tied := {
    routines := congrArg (· ++ [(routineId name, made)]) h.routines
    ids := List.forall_mem_append.mpr ⟨h.ids, List.forall_mem_singleton.mpr ⟨name, rfl⟩⟩
    named := h.named }
  left := List.Subset.refl _
  right := List.Subset.refl _

/-! ### Words that both settings know -/

/-- A word of the class, or a formal. If it is a name, both settings know it. -/
structure Word (B : Text → Prop) (formals : List Name) (m n : Name) (s s' : Bindings) (id : Text) :
    Prop where
  known : ∀ k, id = ofName k → id ∈ s.symbols ∧ swapName m n id ∈ s'.symbols
  among : B id ∨ id ∈ formals.map ofName

theorem Word.onward (h : Word B formals m n s s' w) (hs : Onward s s' t t') :
    Word B formals m n t t' w :=
  ⟨fun k hk => (h.known k hk).imp (hs.left ·) (hs.right ·), h.among⟩

/-- Both settings know the word, or neither does. -/
theorem Word.known_iff (h : Word B formals m n s s' w) (hs : Tied s s') :
    swapName m n w ∈ s'.symbols ↔ w ∈ s.symbols := by
  by_cases hname : ∃ k, w = ofName k
  · obtain ⟨k, hk⟩ := hname
    exact iff_of_true (h.known k hk).2 (h.known k hk).1
  · have hswap : swapName m n w = w := if_neg fun heq => hname ⟨m, heq⟩
    rw [hswap]
    exact iff_of_false (fun hin => hname (hs.named w (Or.inr hin)))
      fun hin => hname (hs.named w (Or.inl hin))

theorem word_of_plain (hid : ∀ k, w ≠ ofName k) (hB : B w) : Word B formals m n s s' w :=
  ⟨fun k hk => absurd hk (hid k), Or.inl hB⟩

/-! ### Two ways of writing -/

/-- Writing fails alike in both ways, or what both write is related. -/
inductive Agree (T : Text → Bindings → Text → Bindings → Prop) : Written → Written → Prop
  | error (e : EvalError) : Agree T (.error e) (.error e)
  | ok {u u' : Text} {s s' : Bindings} (h : T u s u' s') : Agree T (.ok (u, s)) (.ok (u', s'))

variable {T T' : Text → Bindings → Text → Bindings → Prop} {x y : Written}

theorem Agree.bind {f g : Text × Bindings → Written} (h : Agree T x y)
    (hf : ∀ u s u' s', T u s u' s' → Agree T' (f (u, s)) (g (u', s'))) :
    Agree T' (x >>= f) (y >>= g) := by
  cases h with
  | error e => exact .error e
  | ok h => exact hf _ _ _ _ h

theorem Agree.imp (h : Agree T x y) (hT : ∀ u s u' s', T u s u' s' → T' u s u' s') :
    Agree T' x y := by
  cases h with
  | error e => exact .error e
  | ok h => exact .ok (hT _ _ _ _ h)

theorem Agree.enter (h : Agree T x y) : Agree T (enter active name x) (enter active name y) := by
  unfold Repertoire.enter
  split
  · exact .error _
  · exact h

/-- The name is a symbol wherever it stands as an atom. -/
structure IsOpen (r : Repertoire) (name : Name) : Prop where
  constant : r.lexicon.isConstant r.complex name = false
  bare : ∀ rhs, r.function? name ≠ some ([], rhs)

theorem writeAtom_of_isOpen (h : r.IsOpen name) {body : Name → Bindings → Text → Written} :
    r.writeAtom active body s name = .ok (ofName name, meet s (ofName name)) := by
  unfold writeAtom
  rw [if_neg (by simp [h.constant])]
  split
  · exact absurd ‹_› (h.bare _)
  · rfl

/-- The formulas of `R` go into the same functions of both repertoires. -/
structure Shared (r r' : Repertoire) (B : Text → Prop) (R : List Name → Text → Prop) : Prop
    extends r.Within B R where
  lexicon : r'.lexicon = r.lexicon
  complex : r'.complex = r.complex
  names : r'.functionNames = r.functionNames
  target {formals : List Name} {t : Text} (h : R formals t) {k : Token}
    (hk : k ∈ tokens r.lexicon r.functionNames t) : r'.target? k = r.target? k
  plain {formals : List Name} {t : Text} (h : R formals t) {k : Token}
    (hk : k ∈ tokens r.lexicon r.functionNames t) (hother : k.kind = .other) :
    ∀ c ∈ k.text, isIdentRest c = false
  words : ∀ c ∈ r.lexicon.constants, Words IsBuiltin c.expression
  builtin {id : Text} (h : IsBuiltin id) : B id
  routine {name : Name} (h : (r.function? name).isSome = true) : B (routineId name)

/-- What is written of a formula in two ways. -/
structure WrittenAlike (B : Text → Prop) (formals : List Name) (p n : Name) (s s' : Bindings)
    (u : Text) (t : Bindings) (u' : Text) (t' : Bindings) : Prop extends Onward s s' t t' where
  reworded : Reworded (Word B formals p n t t') p n false u u'

/-- What is written of a token in two ways. -/
structure TokenAlike (B : Text → Prop) (formals : List Name) (p n : Name) (s s' : Bindings)
    (k : Token) (u : Text) (t : Bindings) (u' : Text) (t' : Bindings) : Prop
    extends Onward s s' t t' where
  rewrites : Rewrites (Word B formals p n t t') p n (k.kind, k.text) u u'

/-- Functions are written alike by both. -/
def BodiesAlike (r : Repertoire) (B : Text → Prop) (R : List Name → Text → Prop) (p : Name)
    (body body' : Name → Bindings → Text → Written) : Prop :=
  ∀ {name formals rhs s s'}, r.function? name = some (formals, rhs) → R formals rhs → Tied s s' →
    Agree (WrittenAlike B formals p p s s') (body name s rhs) (body' name s' rhs)

section Tokens

variable {k k' : Token} {body body' : Name → Bindings → Text → Written} {ft : Text}

/-- A text that is written out within a formula lacks the name, and may be written under any. -/
theorem WrittenAlike.inside {s₀ s₀' : Bindings} (h : WrittenAlike B [] p p s₀ s₀' u t u' t')
    (hB : ¬ B (ofName p)) : Reworded (Word B formals p n t t') p n false u u' := by
  have hsame := h.reworded.eq
  subst hsame
  refine h.reworded.unswapped fun id hid => ?_
  have hBid : B id := hid.among.resolve_right (by simp)
  have hne : id ≠ ofName p := by
    rintro rfl
    exact hB hBid
  refine ⟨⟨fun k hk => ?_, Or.inl hBid⟩, hne⟩
  have hknown := hid.known k hk
  rw [swapName_self] at hknown
  rwa [swapName, if_neg hne]

theorem Shared.writeAtom (h : r.Shared r' B R) (hR : R formals ft) (hB : ¬ B (ofName p))
    (hp : r.IsOpen p) (hn : r'.IsOpen n) (hbody : BodiesAlike r B R p body body')
    (hk : k ∈ tokens r.lexicon r.functionNames ft) (hatom : k.kind = .atom)
    (hk' : SameBut p n k k') (hs : Tied s s') :
    Agree (TokenAlike B formals p n s s' k) (r.writeAtom active body s k.text)
      (r'.writeAtom active body' s' k'.text) := by
  have htext (hne : k.text ≠ p) : k'.text = k.text := by rw [hk'.text, if_neg fun heq => hne heq.2]
  have hkind (W : Text → Prop) (u u' : Text) (hu : Rewrites W p n (.atom, k.text) u u') :
      Rewrites W p n (k.kind, k.text) u u' := hatom ▸ hu
  have hconstant' :
      r'.lexicon.isConstant r'.complex k.text = r.lexicon.isConstant r.complex k.text := by
    rw [h.lexicon, h.complex]
  cases hconstant : r.lexicon.isConstant r.complex k.text with
  | true =>
    have hne : k.text ≠ p := by
      intro heq
      simp [heq, hp.constant] at hconstant
    obtain ⟨c, hc⟩ : ∃ c, r.lexicon.constant? k.text = some c := by
      cases hc : r.lexicon.constant? k.text with
      | none => simp [Lexicon.isConstant, hc] at hconstant
      | some c => exact ⟨c, rfl⟩
    have hwords := h.words c (List.mem_of_find?_eq_some hc)
    rw [htext hne, Repertoire.writeAtom, Repertoire.writeAtom, hconstant', hconstant, h.lexicon, hc]
    refine .ok ⟨hs.refl, hkind _ _ _ (.bracketed ?_)⟩
    refine (Text.reworded_of_words hwords (not_isBuiltin_ofName p)).mono fun id hid => ?_
    refine word_of_plain ?_ (h.builtin hid)
    rintro k rfl
    exact not_isBuiltin_ofName k hid
  | false =>
    have htarget := h.target hR hk
    rw [target?_of_atom hatom hconstant, target?_of_atom hatom (hconstant'.trans hconstant)]
      at htarget
    cases hfunction : (r.function? k.text).filter fun f => f.1.isEmpty with
    | some f =>
      obtain ⟨hfunction', hempty⟩ := Option.filter_eq_some_iff.mp hfunction
      rw [hfunction] at htarget
      have hsame := (Option.filter_eq_some_iff.mp htarget).1
      obtain ⟨_ | _, rhs⟩ := f
      · have hne : k.text ≠ p := fun heq => hp.bare rhs (heq ▸ hfunction')
        have hinside := hbody hfunction' (h.inlined hR hk hatom hconstant hfunction') hs
        rw [htext hne, Repertoire.writeAtom, Repertoire.writeAtom, hconstant', hconstant,
          hfunction', hsame]
        refine hinside.enter.bind fun u t u' t' hu => .ok ⟨hu.toOnward, hkind _ _ _ (.bracketed ?_)⟩
        exact hu.inside hB
      · simp at hempty
    | none =>
      rw [hfunction] at htarget
      have hopen : r.IsOpen k.text := ⟨hconstant, fun rhs hrhs => by simp [hrhs] at hfunction⟩
      have hopen' : r'.IsOpen k'.text := by
        by_cases heq : k.text = p
        · rwa [hk'.text, if_pos ⟨hatom, heq⟩]
        · rw [htext heq]
          exact ⟨hconstant'.trans hconstant, fun rhs hrhs => by simp [hrhs] at htarget⟩
      have hid : ofName k'.text = swapName p n (ofName k.text) := by
        rw [hk'.text, swapName]
        by_cases heq : k.text = p
        · rw [if_pos ⟨hatom, heq⟩, if_pos (by rw [heq])]
        · rw [if_neg fun hboth => heq hboth.2, if_neg fun hname =>
            heq (Identifier.ofName_inj.mp hname)]
      have hmet := hs.meet k.text k'.text
      rw [writeAtom_of_isOpen hopen, writeAtom_of_isOpen hopen']
      rw [hid] at hmet ⊢
      refine .ok ⟨hmet, hkind _ _ _ (.symbol ⟨fun _ _ => ?_, ?_⟩)⟩
      · exact ⟨mem_symbols_meet.mpr (Or.inr rfl), mem_symbols_meet.mpr (Or.inr rfl)⟩
      · exact (h.symbols hR hk hatom hconstant hopen.bare).imp_right List.mem_map_of_mem

/-- A known function is called by its identifier. -/
theorem rewrites_called (hid : IsName w) (hu : w.head? ≠ some 'u') (hplain : ∀ k, w ≠ ofName k)
    (hB : B w) : Rewrites (Word B formals p n s s') p n (.func, name) w w :=
  .called hid hu (word_of_plain hplain hB) (hplain p)

/-- Written alike, a function is read as one expression in both ways. -/
theorem WrittenAlike.interpret {q : Name} (ρ : Renaming p q)
    (h : WrittenAlike B formals m m s s' u t u' t') :
    Repertoire.interpret t' formula u' = Repertoire.interpret t formula u := by
  obtain rfl := h.reworded.eq
  have hwords : Words (fun id => id ∈ t'.symbols ↔ id ∈ t.symbols) u' := by
    intro id after hid hword
    have hknown := (h.reworded.words id after hid hword).known_iff h.tied
    rwa [swapName_self] at hknown
  rw [Repertoire.interpret, Repertoire.interpret, ρ.read_same h.tied.routines hwords]

theorem Shared.writeCall {q : Name} (ρ : Renaming p q) (h : r.Shared r' B R) (hR : R formals ft)
    (hbody : BodiesAlike r B R p body body') (hk : k ∈ tokens r.lexicon r.functionNames ft)
    (hfunc : k.kind = .func) (hs : Tied s s') :
    Agree (TokenAlike B formals p n s s' k) (r.writeCall active body s k.text)
      (r'.writeCall active body' s' k.text) := by
  have hkind (W : Text → Prop) (u u' : Text) (hu : Rewrites W p n (.func, k.text) u u') :
      Rewrites W p n (k.kind, k.text) u u' := hfunc ▸ hu
  have hsame : r'.function? k.text = r.function? k.text := by
    have htarget := h.target hR hk
    rwa [target?_of_func hfunc, target?_of_func hfunc] at htarget
  rw [Repertoire.writeCall, Repertoire.writeCall, hsame]
  cases hfunction : r.function? k.text with
  | none =>
    dsimp only
    split
    · rename_i hbuiltin
      obtain ⟨hname, hu⟩ := isName_builtin hbuiltin
      refine .ok ⟨hs.refl, hkind _ _ _ (rewrites_called hname hu ?_ (h.builtin (Or.inl hbuiltin)))⟩
      exact fun m hm => not_isBuiltin_ofName m (hm ▸ Or.inl hbuiltin)
    · exact .error _
  | some f =>
    obtain ⟨formals', rhs⟩ := f
    have hroutine (s s' : Bindings) : Rewrites (Word B formals p n s s') p n (k.kind, k.text)
        (routineId k.text) (routineId k.text) :=
      hkind _ _ _ (rewrites_called (isName_routineId _) (by simp [routineId, text])
        (routineId_ne_ofName _) (h.routine (by rw [hfunction]; rfl)))
    dsimp only
    rw [hs.routine?_eq]
    split
    · exact .ok ⟨hs.refl, hroutine _ _⟩
    · have hinside := hbody hfunction (h.called hR hk hfunc hfunction) hs
      refine hinside.enter.bind fun u t u' t' hu => ?_
      rw [hu.interpret ρ]
      cases interpret t rhs u with
      | error e => exact .error e
      | ok x =>
        cases hmade : Arithmetic.routine (formals'.map ofName) x with
        | error f =>
          simp only [Bind.bind, Except.bind, hmade, Except.mapError]
          exact .error _
        | ok made =>
          simp only [Bind.bind, Except.bind, hmade, Except.mapError]
          exact .ok ⟨hu.toOnward.trans (hu.tied.withRoutine k.text made), hroutine _ _⟩

theorem Shared.writeToken {q : Name} (ρ : Renaming p q) (h : r.Shared r' B R) (hR : R formals ft)
    (hB : ¬ B (ofName p)) (hp : r.IsOpen p) (hn : r'.IsOpen n)
    (hbody : BodiesAlike r B R p body body') (hk : k ∈ tokens r.lexicon r.functionNames ft)
    (hk' : SameBut p n k k') (hs : Tied s s') :
    Agree (TokenAlike B formals p n s s' k) (r.writeToken active body s k)
      (r'.writeToken active body' s' k') := by
  have htext (hne : k.kind ≠ .atom) : k'.text = k.text := by
    rw [hk'.text, if_neg fun heq => hne heq.1]
  have hcopied (hatom : k.kind ≠ .atom) (hfunc : k.kind ≠ .func) :
      Agree (TokenAlike B formals p n s s' k) (.ok (copied (k.kind, k.text), s))
        (.ok (copied (k.kind, k.text), s')) :=
    .ok ⟨hs.refl, .copied hatom hfunc⟩
  rw [Repertoire.writeToken, Repertoire.writeToken, hk'.kind]
  cases hkind : k.kind with
  | atom => exact h.writeAtom hR hB hp hn hbody hk hkind hk' hs
  | func =>
    rw [htext (by simp [hkind])]
    exact h.writeCall ρ hR hbody hk hkind hs
  | _ =>
    rw [htext (by simp [hkind])]
    rw [hkind] at hcopied
    exact hcopied (by simp) (by simp)

/-- What is written of tokens in two ways. -/
structure TokensAlike (B : Text → Prop) (formals : List Name) (p n : Name) (s s' : Bindings)
    (ks : List Token) (u : Text) (t : Bindings) (u' : Text) (t' : Bindings) : Prop
    extends Onward s s' t t' where
  rewrites : ∃ uvs : List (Text × Text),
    List.Forall₂ (fun k uv => Rewrites (Word B formals p n t t') p n (k.kind, k.text) uv.1 uv.2)
      ks uvs ∧
      u = (uvs.map Prod.fst).flatten ∧ u' = (uvs.map Prod.snd).flatten

theorem Shared.writeTokens {q : Name} (ρ : Renaming p q) {ks ks' : List Token}
    (h : r.Shared r' B R) (hR : R formals ft) (hB : ¬ B (ofName p)) (hp : r.IsOpen p)
    (hn : r'.IsOpen n) (hbody : BodiesAlike r B R p body body')
    (hks : ks ⊆ tokens r.lexicon r.functionNames ft) (hks' : List.Forall₂ (SameBut p n) ks ks')
    (hs : Tied s s') :
    Agree (TokensAlike B formals p n s s' ks) (r.writeTokens active body s ks)
      (r'.writeTokens active body' s' ks') := by
  induction hks' generalizing s s' with
  | nil => exact .ok ⟨hs.refl, [], .nil, rfl, rfl⟩
  | @cons k k' ks ks' hk' _ ih =>
    obtain ⟨hk, hks⟩ := List.cons_subset.mp hks
    rw [Repertoire.writeTokens, Repertoire.writeTokens]
    refine (h.writeToken ρ hR hB hp hn hbody hk hk' hs).bind fun u t u' t' hu => ?_
    refine (ih hks hu.tied).bind fun v w v' w' hv => .ok ⟨hu.toOnward.trans hv.toOnward, ?_⟩
    obtain ⟨uvs, huvs, rfl, rfl⟩ := hv.rewrites
    exact ⟨(u, u') :: uvs, .cons (hu.rewrites.mono fun id hid => hid.onward hv.toOnward) huvs,
      rfl, rfl⟩

/-- A formula is written alike under the other name if the functions it goes into are. -/
theorem Shared.writeFormula {q : Name} (ρ : Renaming p q) {ks' : List Token} (h : r.Shared r' B R)
    (hR : R formals ft) (hB : ¬ B (ofName p)) (hp : r.IsOpen p) (hn : r'.IsOpen n)
    (hbody : BodiesAlike r B R p body body')
    (hks' : List.Forall₂ (SameBut p n) (tokens r.lexicon r.functionNames ft) ks')
    (hs : Tied s s') :
    Agree (WrittenAlike B formals p n s s')
      (r.writeTokens active body s (tokens r.lexicon r.functionNames ft))
      (r'.writeTokens active body' s' ks') := by
  obtain ⟨ps, hps, hapart, hone, hwritten⟩ := h.pieces hR
  have htokens : tokens r.lexicon r.functionNames ft = Formula.lay 0 ps :=
    hwritten ▸ Formula.tokens_written hps hapart
  refine (h.writeTokens ρ hR hB hp hn hbody (List.Subset.refl _) hks' hs).imp fun u t u' t' hu =>
    ⟨hu.toOnward, ?_⟩
  obtain ⟨uvs, huvs, rfl, rfl⟩ := hu.rewrites
  refine reworded_flatten hps hapart hone (fun q hq hother => ?_) ?_
  · obtain ⟨k, hk, hkind, htext⟩ := Formula.mem_lay hq
    rw [← htext]
    exact h.plain hR (htokens ▸ hk) (hkind.trans hother)
  · rw [htokens] at huvs
    have hmap : List.Forall₂ (fun q uv => Rewrites (Word B formals p n t t') p n q uv.1 uv.2)
        ((Formula.lay 0 ps).map fun k => (k.kind, k.text)) uvs := List.forall₂_map_left_iff.mpr huvs
    rwa [Formula.map_lay] at hmap

/-- However deep functions are nested, formulas of both repertoires are written alike. -/
theorem Shared.write {q : Name} (ρ : Renaming p q) (h : r.Shared r' B R) (hB : ¬ B (ofName p))
    (hp : r.IsOpen p) (hp' : r'.IsOpen p) {room : Nat} (hR : R formals ft) (hs : Tied s s') :
    Agree (WrittenAlike B formals p p s s') (r.write room active s ft)
      (r'.write room active s' ft) := by
  have hself : ∀ ks : List Token, List.Forall₂ (SameBut p p) ks ks := fun ks =>
    List.forall₂_same.mpr fun k _ => ⟨rfl, by split <;> simp_all⟩
  induction room generalizing active s s' ft formals with
  | zero =>
    rw [Repertoire.write, Repertoire.write, h.lexicon, h.names]
    exact h.writeFormula ρ hR hB hp hp' (fun _ _ _ => .error _) (hself _) hs
  | succ room ih =>
    rw [Repertoire.write, Repertoire.write, h.lexicon, h.names]
    exact h.writeFormula ρ hR hB hp hp' (fun _ hR hs => ih hR hs) (hself _) hs

end Tokens

/-! ### Two readings -/

open EvalError (cause)

theorem cause_interpret {ft ft' : Text} {g : Arithmetic.Expr → Arithmetic.Expr}
    (h : (Arithmetic.read s' u').mapError Failure.kind =
      ((Arithmetic.read s u).map (Option.map g)).mapError Failure.kind) :
    (interpret s' ft' u').mapError cause = ((interpret s ft u).map g).mapError cause := by
  unfold interpret
  cases hread : Arithmetic.read s u with
  | error f =>
    rw [hread] at h
    obtain ⟨f', hread', hkind⟩ := error_of_mapError h
    rw [hread']
    simp only [Except.map, Except.mapError, hkind]
    split <;> simp [cause, EvalError.code?, hkind]
  | ok x =>
    rw [hread] at h
    rw [ok_of_mapError h]
    cases x <;> rfl

variable [LawfulArithmetic] {ρ : Renaming p n}

/-- A formula is read as the same expression, renamed, with another name in place of a formal. -/
theorem Shared.read {ft ft' : Text} (h : r.Shared r' (fun id => ρ.spell id = id) R)
    (hR : R formals ft) (hne : n ≠ p) (hp : r.IsOpen p) (hp' : r'.IsOpen p) (hn : r'.IsOpen n)
    (hft : List.Forall₂ (SameBut p n) (tokens r.lexicon r.functionNames ft)
      (tokens r.lexicon r.functionNames ft'))
    (hformals : ∀ m ∈ formals, m = p ∨ ρ.spell (ofName m) = ofName m) :
    (r'.read ft').mapError cause = ((r.read ft).map ρ.rename).mapError cause := by
  have hB : ρ.spell (ofName p) ≠ ofName p := by
    rw [ρ.spell_ofName]
    exact fun heq => hne (Identifier.ofName_inj.mp heq)
  have hwritten : Agree (WrittenAlike (fun id => ρ.spell id = id) formals p n .empty .empty)
      (r.write depthLimit [] .empty ft) (r'.write depthLimit [] .empty ft') := by
    rw [show depthLimit = 31 + 1 from rfl, Repertoire.write, Repertoire.write, h.lexicon, h.names]
    exact h.writeFormula ρ hR hB hp hn (fun _ hR hs => h.write ρ hB hp hp' hR hs) hft tied_empty
  unfold Repertoire.read
  generalize hx : r.write depthLimit [] .empty ft = x at hwritten
  generalize r'.write depthLimit [] .empty ft' = y at hwritten
  cases hwritten with
  | error e => rfl
  | @ok u u' t t' hu =>
    have hwithin := h.toWithin.write hR (fun r hr => absurd hr List.not_mem_nil) hx
    refine cause_interpret (ρ.read_rename hu.reworded hwithin.unquoted hu.tied.routines
      (fun r hr => ?_) hwithin.routines fun id hid => ?_)
    · obtain ⟨name, hname⟩ := hu.tied.ids r hr
      exact hname ▸ ⟨routineId_ne_ofName name p, routineId_ne_ofName name n⟩
    · have hspell : ρ.spell id = swapName p n id := by
        by_cases heq : id = ofName p
        · rw [heq, ρ.spell_ofName, swapName, if_pos rfl]
        · rw [swapName, if_neg heq]
          refine hid.among.elim (fun hB => hB) fun hformal => ?_
          obtain ⟨m, hm, rfl⟩ := List.mem_map.mp hformal
          exact (hformals m hm).resolve_left fun hmp => heq (by rw [hmp])
      exact ⟨hspell, hspell ▸ hid.known_iff hu.tied, fun hp => (hid.known p hp).1⟩

/-! ### Two evaluations -/

omit [LawfulArithmetic] in
theorem cause_quantity (complex : Bool) (formula formula' : Text) (v : Arithmetic.Approx) :
    (quantity complex formula' v).mapError cause = (quantity complex formula v).mapError cause := by
  unfold quantity
  split
  · rfl
  · split
    · split <;> rfl
    · split
      · split <;> rfl
      · rfl

omit [LawfulArithmetic] in
/-- Formulas that are read as the same expression, renamed, have the same value at the same values,
or fail for the same cause. -/
theorem cause_evaluate {formula' : Text} {scope scope' : Scope}
    (hread : (r'.read formula').mapError cause =
      ((r.read formula).map ρ.rename).mapError cause) (hcomplex : r'.complex = r.complex)
    (hscope : identified scope' = (identified scope).map (Prod.map ρ.spell id)) :
    (r'.evaluate formula' scope').mapError cause = (r.evaluate formula scope).mapError cause := by
  unfold evaluate
  cases hx : r.read formula with
  | error e =>
    rw [hx] at hread
    obtain ⟨e', he', hcause⟩ := error_of_mapError hread
    rw [he']
    exact congrArg Except.error hcause
  | ok x =>
    rw [hx] at hread
    rw [ok_of_mapError hread]
    have hids : (scope'.map (·.1)).map ofName = ((scope.map (·.1)).map ofName).map ρ.spell := by
      rw [← keys_identified, hscope, ← keys_identified, List.map_map, List.map_map]
      rfl
    have hopen : openNames (ρ.rename x) (scope'.map (·.1)) = [] ↔
        openNames x (scope.map (·.1)) = [] := by
      rw [openNames_eq_nil, openNames_eq_nil, hids, ρ.symbols_rename, List.forall_mem_map]
      simp only [List.mem_map_of_injective ρ.spell_injective]
    simp only [Bind.bind, Except.bind]
    cases hnames : openNames x (scope.map (·.1)) with
    | nil =>
      rw [hopen.mpr hnames]
      have hcompute := ρ.compute_rename x (identified scope)
      rw [← hscope] at hcompute
      cases hv : compute x (identified scope) with
      | error f =>
        rw [hv] at hcompute
        obtain ⟨f', hf', hkind⟩ := error_of_mapError hcompute
        simp only [hf', Except.mapError, cause, hkind]
        rfl
      | ok v =>
        rw [hv] at hcompute
        simp only [ok_of_mapError hcompute, Except.mapError, hcomplex]
        exact cause_quantity r.complex formula formula' v
    | cons m ms =>
      obtain ⟨m', ms', hnames'⟩ :=
        List.exists_cons_of_ne_nil (mt hopen.mp (hnames ▸ List.cons_ne_nil m ms))
      rw [hnames']
      rfl

/-- With another name for a formal, and the values of names as they were, a formula has the same
value or fails for the same cause. The old name may have a value of its own, if at most one value is
infinite. -/
theorem Shared.evaluate {f : Name → Name} {scope scope' : Scope} {formula' : Text}
    (h : r.Shared r' (fun id => ρ.spell id = id) R) (hR : R formals formula) (hne : n ≠ p)
    (hp : r.IsOpen p) (hp' : r'.IsOpen p) (hn : r'.IsOpen n)
    (hformula : List.Forall₂ (SameBut p n) (tokens r.lexicon r.functionNames formula)
      (tokens r.lexicon r.functionNames formula'))
    (hformals : ∀ m ∈ formals, m = p ∨ ρ.spell (ofName m) = ofName m)
    (hf : ∀ x ∈ scope, ρ.spell (ofName x.1) = ofName (f x.1)) (hkeyed : scope'.Keyed)
    (hperm : (scope'.filter (·.1 != p)).Perm (scope.map (Prod.map f id)))
    (hone : p ∈ scope'.map (·.1) → scope'.infinites ≤ 1) :
    (r'.evaluate formula' scope').mapError cause = (r.evaluate formula scope).mapError cause := by
  have hread := h.read hR hne hp hp' hn hformula hformals
  have hother (x' : Arithmetic.Expr) (hx' : r'.read formula' = .ok x') :
      ofName p ∉ Arithmetic.symbols x' := by
    rw [hx'] at hread
    obtain ⟨x, hx, rfl⟩ := ok_of_map (ok_of_mapError hread.symm)
    rw [ρ.symbols_rename]
    intro hin
    obtain ⟨id, hid, heq⟩ := List.mem_map.mp hin
    have hfixed (hid' : ρ.spell id = id) : False := by
      rw [hid'] at heq
      rw [heq, ρ.spell_ofName] at hid'
      exact hne (Identifier.ofName_inj.mp hid')
    rcases h.toWithin.read hR hx id hid with hB | hformal
    · exact hfixed hB
    · obtain ⟨m, hm, rfl⟩ := List.mem_map.mp hformal
      rcases hformals m hm with rfl | hm
      · exact hne (Identifier.ofName_inj.mp (ρ.spell_ofName.symm.trans heq))
      · exact hfixed hm
  have hwithout :
      r'.evaluate formula' (scope'.filter (·.1 != p)) = r'.evaluate formula' scope' := by
    by_cases hin : p ∈ scope'.map (·.1)
    · exact evaluate_without hother hkeyed (hone hin)
    · have hall : ∀ x ∈ scope', (x.1 != p) = true := fun x hx => by
        have hne : x.1 ≠ p := fun heq => hin (heq ▸ List.mem_map_of_mem hx)
        simpa using hne
      rw [List.filter_eq_self.mpr hall]
  have hscope : identified (scope.map (Prod.map f id)) =
      (identified scope).map (Prod.map ρ.spell id) := by
    rw [identified, identified, List.map_map, List.map_map]
    exact List.map_congr_left fun x hx => by simp [hf x hx]
  rw [← hwithout, evaluate_perm hperm (hkeyed.sublist (List.filter_sublist.map _))]
  exact cause_evaluate hread h.complex hscope

end Repertoire

end Formulary
