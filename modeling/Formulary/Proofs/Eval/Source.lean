import Formulary.Proofs.Binding.Steps
import Formulary.Proofs.Eval.Lawful
import Formulary.Proofs.Eval.Written

/-! # The symbols of a formula written out

Writing a formula out goes into the functions that it mentions, and from these into
others. If each of the formulas met on the way mentions only names of a class and
formals of its own, the symbols that are left belong to the class.
-/

namespace Formulary.Repertoire

open Formula (Token Reads Apart Single written tokens isCallable lay)
open Text (IsName OnlyNames isIdentRest)

variable {B : Text → Prop} {formals : List Name} {name : Name}

/-- The names that a formula with these formals may bring in, if its symbols are to belong to the
class. -/
def Allowed (B : Text → Prop) (formals : List Name) (n : Text) : Prop :=
  IsBuiltin n ∨ B n ∨ n ∈ formals.map Identifier.ofName

theorem Allowed.mono {n : Text} (h : Allowed B [] n) : Allowed B formals n :=
  h.imp_right fun h => Or.inl (h.resolve_right (by simp))

theorem isName_builtin (h : (Builtin.ofName? name).isSome = true) :
    IsName name ∧ name.head? ≠ some 'u' := by
  have hall : ∀ p ∈ Builtin.named, ((text p.1).head?.any Text.isIdentStart = true ∧
      (text p.1).all isIdentRest = true) ∧ (text p.1).head? ≠ some 'u' := by
    decide +kernel
  obtain ⟨b, hb⟩ := Option.isSome_iff_exists.mp h
  obtain ⟨p, hp, -⟩ := Option.map_eq_some_iff.mp hb
  obtain rfl : text p.1 = name := by simpa using List.find?_some hp
  obtain ⟨⟨hstart, hchars⟩, hu⟩ := hall p (List.mem_of_find?_eq_some hp)
  exact ⟨⟨hstart, List.all_eq_true.mp hchars⟩, hu⟩

/-- The built-in functions of the lexicon have a meaning. -/
theorem isSome_of_isFunction (h : Lexicon.builtin.isFunction name = true) :
    (Builtin.ofName? name).isSome = true := by
  have hall : ∀ name ∈ Lexicon.builtin.functions, (Builtin.ofName? name).isSome = true := by
    decide +kernel
  exact hall name (List.contains_iff_mem.mp h)

theorem isName_routineId (name : Name) : IsName (routineId name) := by
  have hmark : IsName (text "f_s_") := ⟨by decide +kernel, List.all_eq_true.mp (by decide +kernel)⟩
  exact Identifier.isName_mark_append _ hmark name

theorem unquoted_copied {p : Formula.Piece} (h : Unquoted p.2) : Unquoted (copied p) := by
  have hmarks : Unquoted ['('] ∧ Unquoted [')'] ∧ Unquoted (text "**") := by simp [Unquoted, text]
  unfold copied
  split
  · exact hmarks.1
  · exact hmarks.2.1
  · split
    · exact hmarks.2.2
    · exact h
  · exact h

variable [Arithmetic] {r : Repertoire} {R : List Name → Text → Prop} {active : List Name}
  {s s' : Bindings} {t u : Text} {k : Token}
  {ks : List Token} {e : Arithmetic.Expr} {body : Name → Bindings → Text → Written}

/-- The symbols that are open in routines belong to the class. -/
def RoutinesWithin (B : Text → Prop) (s : Bindings) : Prop :=
  ∀ r ∈ s.routines, ∀ id ∈ Arithmetic.free r.2, B id

/-- The expression of a source text has the symbols that its names stand for. -/
theorem symbols_of_interpret [LawfulArithmetic] {formula source : Text} (hs : RoutinesWithin B s)
    (hnames : OnlyNames (Allowed B formals) source) (hsource : Unquoted source)
    (h : interpret s formula source = .ok e) :
    ∀ id ∈ Arithmetic.symbols e, B id ∨ id ∈ formals.map Identifier.ofName := by
  intro id hid
  have hread : Arithmetic.read s source = .ok (some e) := by
    unfold interpret at h
    split at h
    · simp at h
    · simp at h
    · obtain rfl := Except.ok.inj h
      assumption
  rcases LawfulArithmetic.symbols_read hsource hread hid with
    ⟨hbuiltin, hname, after, hword, hl⟩ | ⟨f, hf, hfree⟩
  · exact (hnames id after hname hword hl).resolve_left hbuiltin
  · exact Or.inl (hs f hf id hfree)

/-- What each token keeps, all of them keep. -/
theorem writeTokens_eq_ok {I : Bindings → Prop} {W : Token → Text → Prop}
    (hstep : ∀ k ∈ ks, ∀ s u s', I s → r.writeToken active body s k = .ok (u, s') → I s' ∧ W k u)
    (hs : I s) (h : r.writeTokens active body s ks = .ok (t, s')) :
    I s' ∧ ∃ us, List.Forall₂ W ks us ∧ us.flatten = t := by
  induction ks generalizing s t with
  | nil =>
    obtain ⟨rfl, rfl⟩ := Prod.mk.inj (Except.ok.inj h)
    exact ⟨hs, [], .nil, rfl⟩
  | cons k ks ih =>
    rw [writeTokens] at h
    obtain ⟨⟨u, mid⟩, hfirst, h⟩ := ok_of_bind h
    obtain ⟨⟨rest, last⟩, hrest, h⟩ := ok_of_bind h
    obtain ⟨rfl, rfl⟩ := Prod.mk.inj (Except.ok.inj h)
    obtain ⟨hmid, hW⟩ := hstep k List.mem_cons_self s u mid hs hfirst
    obtain ⟨hlast, us, hus, rfl⟩ :=
      ih (fun k hk => hstep k (List.mem_cons_of_mem _ hk)) hmid hrest
    exact ⟨hlast, u :: us, .cons hW hus, rfl⟩

/-- The formulas of `R`, each with its formals, mention names of the class, their own formals, and
functions whose formulas are in `R` again. -/
structure Within (r : Repertoire) (B : Text → Prop) (R : List Name → Text → Prop) : Prop where
  pieces {formals : List Name} {t : Text} (h : R formals t) :
    ∃ ps, Reads (isCallable r.lexicon r.functionNames) ps ∧ Apart ps ∧ Single ps ∧ written ps = t
  constants {formals : List Name} {t : Text} (h : R formals t) {k : Token}
    (hk : k ∈ tokens r.lexicon r.functionNames t) (hatom : k.kind = .atom)
    (hconstant : r.lexicon.isConstant r.complex k.text = true) :
    OnlyNames (Allowed B []) (((r.lexicon.constant? k.text).map Constant.expression).getD []) ∧
      Unquoted (((r.lexicon.constant? k.text).map Constant.expression).getD [])
  inlined {formals : List Name} {t rhs : Text} (h : R formals t) {k : Token}
    (hk : k ∈ tokens r.lexicon r.functionNames t) (hatom : k.kind = .atom)
    (hconstant : r.lexicon.isConstant r.complex k.text = false)
    (hfunction : r.function? k.text = some ([], rhs)) : R [] rhs
  called {formals formals' : List Name} {t rhs : Text} (h : R formals t) {k : Token}
    (hk : k ∈ tokens r.lexicon r.functionNames t) (hfunc : k.kind = .func)
    (hfunction : r.function? k.text = some (formals', rhs)) : R formals' rhs
  symbols {formals : List Name} {t : Text} (h : R formals t) {k : Token}
    (hk : k ∈ tokens r.lexicon r.functionNames t) (hatom : k.kind = .atom)
    (hconstant : r.lexicon.isConstant r.complex k.text = false)
    (hbare : ∀ rhs, r.function? k.text ≠ some ([], rhs)) :
    B (Identifier.ofName k.text) ∨ k.text ∈ formals
  unquoted {formals : List Name} {t : Text} (h : R formals t) {k : Token}
    (hk : k ∈ tokens r.lexicon r.functionNames t) (hatom : k.kind ≠ .atom)
    (hfunc : k.kind ≠ .func) : Unquoted k.text
  stray : (∀ formals t, R formals t → ∀ k ∈ tokens r.lexicon r.functionNames t, k.kind = .other →
      ∀ c ∈ k.text, isIdentRest c = false) ∨
    ∀ id, ¬ B id → ∃ name, id = Identifier.ofName name

theorem routinesWithin_meet (h : RoutinesWithin B s) (id : Text) :
    RoutinesWithin B (meet s id) := by
  unfold meet
  split
  · exact h
  · exact h

theorem enter_eq_ok {write : Written} {result : Text × Bindings}
    (h : enter active name write = .ok result) : name ∉ active ∧ write = .ok result := by
  unfold enter at h
  split at h
  · simp at h
  · rename_i hnot
    exact ⟨by simpa using hnot, h⟩

/-- An atom is written as a constant, as a function without arguments or as a symbol. -/
theorem writeAtom_cases (hw : r.writeAtom active body s name = .ok (u, s')) :
    (r.lexicon.isConstant r.complex name = true ∧ s' = s ∧
      ∃ c, r.lexicon.constant? name = some c ∧ u = brackets c.expression) ∨
    (r.lexicon.isConstant r.complex name = false ∧ ∃ rhs t,
      r.function? name = some ([], rhs) ∧ body name s rhs = .ok (t, s') ∧ u = brackets t) ∨
    (r.lexicon.isConstant r.complex name = false ∧ (∀ rhs, r.function? name ≠ some ([], rhs)) ∧
      u = Identifier.ofName name ∧ s' = meet s u) := by
  unfold Repertoire.writeAtom at hw
  split at hw
  · rename_i hconstant
    obtain ⟨rfl, rfl⟩ := Prod.mk.inj (Except.ok.inj hw)
    obtain ⟨c, hc⟩ : ∃ c, r.lexicon.constant? name = some c := by
      cases hc : r.lexicon.constant? name with
      | none => simp [Lexicon.isConstant, hc] at hconstant
      | some c => exact ⟨c, rfl⟩
    exact Or.inl ⟨hconstant, rfl, c, hc, by rw [hc]; rfl⟩
  · rename_i hconstant
    rw [Bool.not_eq_true] at hconstant
    split at hw
    · rename_i rhs hfunction
      obtain ⟨⟨t, mid⟩, henter, hw⟩ := ok_of_bind hw
      obtain ⟨rfl, rfl⟩ := Prod.mk.inj (Except.ok.inj hw)
      exact Or.inr (Or.inl ⟨hconstant, rhs, t, hfunction, (enter_eq_ok henter).2, rfl⟩)
    · rename_i hbare
      obtain ⟨rfl, rfl⟩ := Prod.mk.inj (Except.ok.inj hw)
      exact Or.inr (Or.inr ⟨hconstant, hbare, rfl, rfl⟩)

/-- A token is written as an atom, as a call or as it stands. -/
theorem writeToken_cases (hw : r.writeToken active body s k = .ok (u, s')) :
    (k.kind = .atom ∧ r.writeAtom active body s k.text = .ok (u, s')) ∨
    (k.kind = .func ∧ r.writeCall active body s k.text = .ok (u, s')) ∨
    (k.kind ≠ .atom ∧ k.kind ≠ .func ∧ u = copied (k.kind, k.text) ∧ s' = s) := by
  have hcopied (hatom : k.kind ≠ .atom) (hfunc : k.kind ≠ .func)
      (hw : (.ok (copied (k.kind, k.text), s) : Written) = .ok (u, s')) :
      k.kind ≠ .atom ∧ k.kind ≠ .func ∧ u = copied (k.kind, k.text) ∧ s' = s := by
    obtain ⟨rfl, rfl⟩ := Prod.mk.inj (Except.ok.inj hw)
    exact ⟨hatom, hfunc, rfl, rfl⟩
  unfold Repertoire.writeToken at hw
  cases hkind : k.kind with
  | atom =>
    rw [hkind] at hw
    exact Or.inl ⟨rfl, hw⟩
  | func =>
    rw [hkind] at hw
    exact Or.inr (Or.inl ⟨rfl, hw⟩)
  | _ =>
    rw [hkind] at hw hcopied
    exact Or.inr (Or.inr (hcopied (by simp) (by simp) hw))

/-- A text that was written within the class: it quotes nothing, its names are allowed, and routines
are within the class. -/
structure WrittenWithin (B : Text → Prop) (formals : List Name) (s : Bindings) (t : Text) :
    Prop where
  routines : RoutinesWithin B s
  names : OnlyNames (Allowed B formals) t
  unquoted : Unquoted t

theorem WrittenWithin.mono (h : WrittenWithin B [] s t) : WrittenWithin B formals s t :=
  ⟨h.routines, fun n after hn hword hl => (h.names n after hn hword hl).mono, h.unquoted⟩

/-- A token that was written within the class. -/
structure TokenWithin (B : Text → Prop) (formals : List Name) (k : Token) (u : Text) : Prop where
  writes : Writes (Allowed B formals) (k.kind, k.text) u
  unquoted : Unquoted u

/-- What is written for the functions met is within the class. -/
def WritesWithin (r : Repertoire) (B : Text → Prop) (R : List Name → Text → Prop)
    (body : Name → Bindings → Text → Written) : Prop :=
  ∀ {name formals rhs s t s'}, r.function? name = some (formals, rhs) → R formals rhs →
    RoutinesWithin B s → body name s rhs = .ok (t, s') → WrittenWithin B formals s' t

namespace Within

theorem writeAtom (h : r.Within B R) (hR : R formals t) (hbody : WritesWithin r B R body)
    (hk : k ∈ tokens r.lexicon r.functionNames t) (hatom : k.kind = .atom)
    (hs : RoutinesWithin B s) (hw : r.writeAtom active body s k.text = .ok (u, s')) :
    RoutinesWithin B s' ∧ TokenWithin B formals k u := by
  rcases writeAtom_cases hw with ⟨hconstant, rfl, c, hc, rfl⟩ |
    ⟨hconstant, rhs, t', hfunction, hinside, rfl⟩ | ⟨hconstant, hbare, rfl, rfl⟩
  · obtain ⟨hnames, hquotes⟩ := h.constants hR hk hatom hconstant
    rw [hc] at hnames hquotes
    refine ⟨hs, hatom ▸ .bracketed fun n after hn hword hl => ?_, unquoted_brackets hquotes⟩
    exact (hnames n after hn hword hl).mono
  · have hwritten := hbody hfunction (h.inlined hR hk hatom hconstant hfunction) hs hinside
    exact ⟨hwritten.routines, hatom ▸ .bracketed hwritten.mono.names,
      unquoted_brackets hwritten.unquoted⟩
  · refine ⟨routinesWithin_meet hs _, hatom ▸ .symbol (Or.inr ?_),
      (Identifier.isName_ofName _).unquoted⟩
    exact (h.symbols hR hk hatom hconstant hbare).imp_right List.mem_map_of_mem

theorem writeCall [LawfulArithmetic] (h : r.Within B R) (hR : R formals t)
    (hbody : WritesWithin r B R body) (hk : k ∈ tokens r.lexicon r.functionNames t)
    (hfunc : k.kind = .func) (hs : RoutinesWithin B s)
    (hw : r.writeCall active body s k.text = .ok (u, s')) :
    RoutinesWithin B s' ∧ TokenWithin B formals k u := by
  have hroutine : TokenWithin B formals k (routineId k.text) :=
    ⟨hfunc ▸ .called (isName_routineId _) (by simp [routineId, text]),
      (isName_routineId _).unquoted⟩
  unfold Repertoire.writeCall at hw
  split at hw
  · rename_i formals' rhs hfunction
    dsimp only at hw
    split at hw
    · obtain ⟨rfl, rfl⟩ := Prod.mk.inj (Except.ok.inj hw)
      exact ⟨hs, hroutine⟩
    · obtain ⟨⟨t', mid⟩, henter, hw⟩ := ok_of_bind hw
      obtain ⟨e, he, hw⟩ := ok_of_bind hw
      obtain ⟨made, hmade, hw⟩ := ok_of_bind hw
      obtain ⟨rfl, rfl⟩ := Prod.mk.inj (Except.ok.inj hw)
      have hwritten := hbody hfunction (h.called hR hk hfunc hfunction) hs (enter_eq_ok henter).2
      have hsymbols := symbols_of_interpret hwritten.routines hwritten.names hwritten.unquoted he
      refine ⟨List.forall_mem_append.mpr ⟨hwritten.routines,
        List.forall_mem_singleton.mpr fun id hid => ?_⟩, hroutine⟩
      obtain ⟨hid, hformal⟩ := LawfulArithmetic.free_routine (ok_of_mapError hmade) hid
      exact (hsymbols id hid).resolve_right hformal
  · split at hw
    · rename_i hbuiltin
      obtain ⟨rfl, rfl⟩ := Prod.mk.inj (Except.ok.inj hw)
      have hname := isName_builtin hbuiltin
      exact ⟨hs, hfunc ▸ .called hname.1 hname.2, hname.1.unquoted⟩
    · simp at hw

variable [LawfulArithmetic]

theorem writeToken (h : r.Within B R) (hR : R formals t) (hbody : WritesWithin r B R body)
    (hk : k ∈ tokens r.lexicon r.functionNames t) (hs : RoutinesWithin B s)
    (hw : r.writeToken active body s k = .ok (u, s')) :
    RoutinesWithin B s' ∧ TokenWithin B formals k u := by
  rcases writeToken_cases hw with ⟨hatom, hw⟩ | ⟨hfunc, hw⟩ | ⟨hatom, hfunc, rfl, rfl⟩
  · exact h.writeAtom hR hbody hk hatom hs hw
  · exact h.writeCall hR hbody hk hfunc hs hw
  · exact ⟨hs, .copied hatom hfunc, unquoted_copied (h.unquoted hR hk hatom hfunc)⟩

/-- A formula is written within its class if the functions it goes into are. -/
theorem writeTokens (h : r.Within B R) (hR : R formals t) (hbody : WritesWithin r B R body)
    (hs : RoutinesWithin B s)
    (hw : r.writeTokens active body s (tokens r.lexicon r.functionNames t) = .ok (u, s')) :
    WrittenWithin B formals s' u := by
  obtain ⟨hlast, us, hus, rfl⟩ := writeTokens_eq_ok (I := RoutinesWithin B)
    (W := TokenWithin B formals) (fun k hk s u s' hs hw => h.writeToken hR hbody hk hs hw) hs hw
  obtain ⟨ps, hps, hapart, hone, rfl⟩ := h.pieces hR
  have htokens := Formula.tokens_written hps hapart
  refine ⟨hlast, onlyNames_flatten hps hapart hone ?_ (h.stray.imp ?_ ?_),
    unquoted_flatten fun u hu => ?_⟩
  · rw [htokens] at hus
    have hmap := List.forall₂_map_left_iff.mpr (hus.imp fun _ _ h => h.writes)
    rwa [Formula.map_lay] at hmap
  · intro hstray p hp hother c hc
    obtain ⟨k, hk, hkind, htext⟩ := Formula.mem_lay hp
    exact hstray _ _ hR k (htokens ▸ hk) (hkind.trans hother) c (htext ▸ hc)
  · intro hstray n _ hn
    exact hstray n fun hB => hn (Or.inr (Or.inl hB))
  · have hquotes := hus.flip.imp fun _ _ h => And.intro h.unquoted trivial
    exact ((List.forall₂_and_left us _).mp hquotes).1 u hu

/-- Written out within its class, a formula has no names but those of the class and its formals,
and no routine does. -/
theorem write (h : r.Within B R) {room : Nat} (hR : R formals t) (hs : RoutinesWithin B s)
    (hw : r.write room active s t = .ok (u, s')) : WrittenWithin B formals s' u := by
  induction room generalizing active s t u s' formals with
  | zero => exact h.writeTokens hR (fun _ _ _ hw => by simp at hw) hs hw
  | succ room ih => exact h.writeTokens hR (fun _ hR hs hw => ih hR hs hw) hs hw

/-- The symbols that are left in what a formula reads as belong to its class or are its formals. -/
theorem read (h : r.Within B R) (hR : R formals t) (hread : r.read t = .ok e) :
    ∀ id ∈ Arithmetic.symbols e, B id ∨ id ∈ formals.map Identifier.ofName := by
  obtain ⟨⟨u, s⟩, hw, hread⟩ := ok_of_bind hread
  have hwritten := h.write hR (fun p hp => absurd hp List.not_mem_nil) hw
  exact symbols_of_interpret hwritten.routines hwritten.names hwritten.unquoted hread

end Within

end Formulary.Repertoire
