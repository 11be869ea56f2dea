import Formulary.Calc.Term
import Formulary.Proofs.Calc.Lexeme

/-! # The names and operators of a term

The value of a term hangs on names that it holds other than as functions called. In
the source text such a name has no bracket behind it: what a part of the grammar
reads from some lexemes has only names that stand plain among them. All its names
and operators, those of functions called included, are lexemes that were read.
-/

namespace Formulary.Term

open Lexeme (Plain plain_cons)

mutual

/-- The names that give a term its value; functions that are called are none of them. -/
def names : Term → List Text
  | .name t => [t]
  | .call _ args => namesOf args
  | .factorial _ t | .unary _ t => t.names
  | .binary _ a b => a.names ++ b.names
  | .compare _ ts | .tuple ts | .display ts => namesOf ts
  | _ => []

def namesOf : List Term → List Text
  | [] => []
  | t :: ts => t.names ++ namesOf ts

end

/-- How a comparison is spelled. -/
def spelling : Comparison → Text
  | .less => text "<"
  | .lessEq => text "<="
  | .greater => text ">"
  | .greaterEq => text ">="
  | .equal => text "=="
  | .notEqual => text "!="

def binarySpelling (op : BinaryOp) : Text :=
  ((binaryOps.find? fun p => p.2.2 == op).map (·.1)).getD []

def unarySpelling : UnaryOp → Text
  | .plus => ['+']
  | .minus => ['-']
  | .invert => ['~']

mutual

/-- The names and operators of a term, functions that are called included. -/
def lexemes : Term → List Lexeme
  | .name t => [.name t]
  | .call f args => f.lexemes ++ lexemesOf args
  | .attribute t | .factorial _ t => t.lexemes
  | .unary op t => .op (unarySpelling op) :: t.lexemes
  | .binary op a b => .op (binarySpelling op) :: (a.lexemes ++ b.lexemes)
  | .compare ops ts => ops.map (fun c => .op (spelling c)) ++ lexemesOf ts
  | .tuple ts | .display ts => lexemesOf ts
  | _ => []

def lexemesOf : List Term → List Lexeme
  | [] => []
  | t :: ts => t.lexemes ++ lexemesOf ts

end

variable {n : Text} {t u : Term} {ts us : List Term} {ls rest mid : List Lexeme} {fuel : Nat}

theorem namesOf_append : namesOf (ts ++ us) = namesOf ts ++ namesOf us := by
  induction ts with
  | nil => rfl
  | cons t ts ih => simp [namesOf, ih]

theorem lexemesOf_append : lexemesOf (ts ++ us) = lexemesOf ts ++ lexemesOf us := by
  induction ts with
  | nil => rfl
  | cons t ts ih => simp [lexemesOf, ih]

theorem spelling_of_comparison? {o : Text} {c : Comparison} (h : comparison? o = some c) :
    spelling c = o := by
  unfold comparison? at h
  repeat' split at h
  case isFalse => cases h
  all_goals
    obtain rfl := Option.some.inj h
    exact Eq.symm ‹_›

theorem unarySpelling_of_unaryOp? {o : Text} {op : UnaryOp} (h : unaryOp? o = some op) :
    unarySpelling op = o := by
  unfold unaryOp? at h
  repeat' split at h
  case isFalse => cases h
  all_goals
    obtain rfl := Option.some.inj h
    exact Eq.symm ‹_›

theorem binarySpelling_of_binaryOp? {o : Text} {level : Nat} {op : BinaryOp}
    (h : binaryOp? o = some (level, op)) : binarySpelling op = o := by
  have hall : ∀ p ∈ binaryOps, binarySpelling p.2.2 = p.1 := by decide
  obtain ⟨p, hp, hop⟩ := Option.map_eq_some_iff.mp h
  have ho : p.1 = o := by simpa using List.find?_some hp
  rw [← ho, ← hall p (List.mem_of_find?_eq_some hp), hop]

/-- What is read from lexemes leaves an end of them, has only names that are plain there, and
holds only lexemes from there. -/
structure Sees (ls rest : List Lexeme) (names : List Text) (lexemes : List Lexeme) : Prop where
  suffix : rest <:+ ls
  plain : ∀ n ∈ names, Plain n ls
  among : lexemes ⊆ ls

section Sees

variable {ns ms : List Text} {ks js : List Lexeme}

theorem Sees.cons {l : Lexeme} (h : Sees ls rest ns ks) : Sees (l :: ls) rest ns (l :: ks) :=
  ⟨h.suffix.trans (List.suffix_cons l ls), fun n hn => plain_cons.mpr (Or.inr (h.plain n hn)),
    List.cons_subset_cons l h.among⟩

theorem Sees.subset (h : Sees ls rest ns ks) (hns : ms ⊆ ns) (hks : js ⊆ ks) :
    Sees ls rest ms js :=
  ⟨h.suffix, fun n hn => h.plain n (hns hn), List.Subset.trans hks h.among⟩

/-- Reads past a lexeme that is none of the term. -/
theorem Sees.skip {l : Lexeme} (h : Sees ls rest ns ks) : Sees (l :: ls) rest ns ks :=
  h.cons.subset (List.Subset.refl _) (List.subset_cons_self l ks)

theorem plain_of_suffix (h : Plain n rest) (hs : rest <:+ ls) : Plain n ls := by
  obtain ⟨ks, rfl⟩ := hs
  exact h.append ks

theorem Sees.trans (h : Sees ls mid ns ks) (h' : Sees mid rest ms js) :
    Sees ls rest (ns ++ ms) (ks ++ js) := by
  refine ⟨h'.suffix.trans h.suffix, fun n hn => ?_,
    List.append_subset.mpr ⟨h.among, List.Subset.trans h'.among h.suffix.subset⟩⟩
  rcases List.mem_append.mp hn with hn | hn
  · exact h.plain n hn
  · exact plain_of_suffix (h'.plain n hn) h.suffix

theorem Sees.nil (h : rest <:+ ls) : Sees ls rest [] [] := ⟨h, by simp, List.nil_subset _⟩

theorem Sees.refl : Sees ls ls [] [] := .nil (List.suffix_refl ls)

end Sees

/-- What is read on from a term has names and lexemes of that term, and others as they are seen.
The names stay plain if the term is not called. -/
structure Extends (ls rest : List Lexeme) (bare : Prop) (t u : Term) : Prop where
  suffix : rest <:+ ls
  plain : ∀ n ∈ u.names, (n ∈ t.names ∧ bare) ∨ Plain n ls
  among : ∀ k ∈ u.lexemes, k ∈ t.lexemes ∨ k ∈ ls

theorem Extends.sees {bare : Prop} (h : Extends mid rest bare t u)
    (ht : Sees ls mid t.names t.lexemes) : Sees ls rest u.names u.lexemes where
  suffix := h.suffix.trans ht.suffix
  plain n hn := (h.plain n hn).elim (fun hn => ht.plain n hn.1) fun hn =>
    plain_of_suffix hn ht.suffix
  among k hk := (h.among k hk).elim (fun hk => ht.among hk) fun hk => ht.suffix.subset hk

theorem some_triple_inj {α β γ : Type} {a a' : α} {b b' : β} {c c' : γ}
    (h : some (a, b, c) = some (a', b', c')) : a = a' ∧ b = b' ∧ c = c' := by
  simpa using h

theorem dropQuoted_suffix (ls : List Lexeme) : dropQuoted ls <:+ ls := by
  fun_induction dropQuoted ls with
  | case1 rest ih => exact ih.trans (List.suffix_cons _ _)
  | case2 => exact List.suffix_refl _

theorem bangs_suffix (ls : List Lexeme) : (bangs ls).2 <:+ ls := by
  fun_induction bangs ls with
  | case1 rest n after h ih =>
    rw [h] at ih
    exact ih.trans (List.suffix_cons _ _)
  | case2 => exact List.suffix_refl _

theorem names_group {comma : Bool} : (group ts comma).names ⊆ namesOf ts := by
  unfold group
  split
  · simp [namesOf]
  · simp [names]

theorem lexemes_group {comma : Bool} : (group ts comma).lexemes ⊆ lexemesOf ts := by
  unfold group
  split
  · simp [lexemesOf]
  · simp [lexemes]

mutual

theorem sees_expression? : ∀ {fuel ls t rest}, expression? fuel ls = some (t, rest) →
    Sees ls rest t.names t.lexemes
  | 0, _, _, _, h => by simp [expression?] at h
  | fuel + 1, ls, t, rest, h => by
    rw [expression?] at h
    obtain ⟨⟨t', mid⟩, hfirst, h⟩ := Option.bind_eq_some_iff.mp h
    obtain ⟨⟨ops, ts, rest'⟩, hmore, h⟩ := Option.bind_eq_some_iff.mp h
    obtain ⟨rfl, rfl⟩ := Prod.mk.inj (Option.some.inj h)
    have hsees := (sees_operation? hfirst).trans (sees_comparisons? hmore)
    split
    · exact hsees.subset (List.subset_append_left _ _) (List.subset_append_left _ _)
    · refine hsees.subset (List.Subset.refl _) ?_
      intro k hk
      simp only [lexemes, lexemesOf, List.mem_append] at hk ⊢
      exact or_left_comm.mp hk

theorem sees_comparisons? : ∀ {fuel ls ops ts rest}, comparisons? fuel ls = some (ops, ts, rest) →
    Sees ls rest (namesOf ts) (ops.map (fun c => .op (spelling c)) ++ lexemesOf ts)
  | 0, _, _, _, _, h => by simp [comparisons?] at h
  | fuel + 1, ls, ops, ts, rest, h => by
    rw [comparisons?.eq_def] at h
    dsimp only at h
    split at h
    · split at h
      · rename_i o more c hc
        obtain ⟨⟨t, mid⟩, hfirst, h⟩ := Option.bind_eq_some_iff.mp h
        obtain ⟨⟨ops', ts', rest'⟩, hmore, h⟩ := Option.bind_eq_some_iff.mp h
        obtain ⟨rfl, rfl, rfl⟩ := some_triple_inj h
        refine ((sees_operation? hfirst).trans (sees_comparisons? hmore)).cons.subset
          (List.Subset.refl _) ?_
        intro k hk
        simp only [List.map_cons, spelling_of_comparison? hc, lexemesOf, List.mem_append,
          List.mem_cons] at hk ⊢
        rcases hk with (hk | hk) | hk | hk
        · exact Or.inl hk
        · exact Or.inr (Or.inr (Or.inl hk))
        · exact Or.inr (Or.inl hk)
        · exact Or.inr (Or.inr (Or.inr hk))
      · obtain ⟨rfl, rfl, rfl⟩ := some_triple_inj h
        exact .refl
    · obtain ⟨rfl, rfl, rfl⟩ := some_triple_inj h
      exact .refl

theorem sees_operation? : ∀ {fuel level ls t rest}, operation? fuel level ls = some (t, rest) →
    Sees ls rest t.names t.lexemes
  | 0, _, _, _, _, h => by simp [operation?] at h
  | fuel + 1, level, ls, t, rest, h => by
    rw [operation?] at h
    obtain ⟨⟨t', mid⟩, hfirst, h⟩ := Option.bind_eq_some_iff.mp h
    exact (extends_operators? h).sees (sees_signed? hfirst)

theorem sees_signed? : ∀ {fuel ls t rest}, signed? fuel ls = some (t, rest) →
    Sees ls rest t.names t.lexemes
  | 0, _, _, _, h => by simp [signed?] at h
  | fuel + 1, ls, t, rest, h => by
    rw [signed?.eq_def] at h
    dsimp only at h
    split at h
    · split at h
      · rename_i op hop
        obtain ⟨⟨t', mid⟩, hmore, h⟩ := Option.bind_eq_some_iff.mp h
        obtain ⟨rfl, rfl⟩ := Prod.mk.inj (Option.some.inj h)
        rw [lexemes, unarySpelling_of_unaryOp? hop]
        exact (sees_operation? hmore).cons
      · exact sees_primary? h
    · exact sees_primary? h

theorem extends_operators? : ∀ {fuel level t ls u rest},
    operators? fuel level t ls = some (u, rest) → Extends ls rest True t u
  | 0, _, _, _, _, _, h => by simp [operators?] at h
  | fuel + 1, level, t, ls, u, rest, h => by
    have hsame (h : some (t, ls) = some (u, rest)) : Extends ls rest True t u := by
      obtain ⟨rfl, rfl⟩ := Prod.mk.inj (Option.some.inj h)
      exact ⟨List.suffix_refl _, fun n hn => Or.inl ⟨hn, trivial⟩, fun k hk => Or.inl hk⟩
    rw [operators?.eq_def] at h
    dsimp only at h
    split at h
    · rename_i o more
      split at h
      · rename_i op hop
        split at h
        · exact hsame h
        · obtain ⟨⟨v, mid⟩, hright, h⟩ := Option.bind_eq_some_iff.mp h
          have hsees : Sees (.op o :: more) mid v.names (.op o :: v.lexemes) :=
            (sees_operation? hright).cons
          have hrest := extends_operators? h
          refine ⟨hrest.suffix.trans hsees.suffix, fun n hn => ?_, fun k hk => ?_⟩
          · rcases hrest.plain n hn with ⟨hn, -⟩ | hn
            · exact (List.mem_append.mp hn).imp (fun hn => ⟨hn, trivial⟩) (hsees.plain n)
            · exact Or.inr (plain_of_suffix hn hsees.suffix)
          · rcases hrest.among k hk with hk | hk
            · rw [lexemes, binarySpelling_of_binaryOp? hop, List.mem_cons, List.mem_append,
                or_left_comm] at hk
              exact hk.imp_right fun hk => hsees.among (List.mem_cons.mpr hk)
            · exact Or.inr (hsees.suffix.subset hk)
      · exact hsame h
    · exact hsame h

theorem sees_primary? : ∀ {fuel ls t rest}, primary? fuel ls = some (t, rest) →
    Sees ls rest t.names t.lexemes
  | 0, _, _, _, h => by simp [primary?] at h
  | fuel + 1, ls, t, rest, h => by
    have hinner {u : Term} {l : Lexeme} {mid ls : List Lexeme}
        (hu : Sees ls mid u.names u.lexemes) (h : endings? fuel u mid = some (t, rest)) :
        Sees (l :: ls) rest t.names t.lexemes :=
      ((extends_endings? h).sees hu).skip
    rw [primary?.eq_def] at h
    dsimp only at h
    split at h
    · have hrest := extends_endings? h
      refine ⟨hrest.suffix.trans (List.suffix_cons _ _), fun n hn => plain_cons.mpr ?_,
        fun k hk => ?_⟩
      · rcases hrest.plain n hn with ⟨hn, hhead⟩ | hn
        · obtain rfl := List.mem_singleton.mp hn
          exact Or.inl ⟨rfl, hhead⟩
        · exact Or.inr hn
      · rcases hrest.among k hk with hk | hk
        · exact List.mem_cons.mpr (Or.inl (List.mem_singleton.mp hk))
        · exact List.mem_cons_of_mem _ hk
    · exact hinner .refl h
    · exact hinner .refl h
    · exact hinner (.nil (dropQuoted_suffix _)) h
    · split at h
      · exact hinner .refl h
      · split at h
        · obtain ⟨⟨ts, comma, mid⟩, hts, h⟩ := Option.bind_eq_some_iff.mp h
          exact hinner ((sees_members? hts).subset names_group lexemes_group) h
        · split at h
          · obtain ⟨⟨ts, mid⟩, hts, h⟩ := Option.bind_eq_some_iff.mp h
            exact hinner (u := .display ts) (sees_displayed? hts) h
          · simp at h
    · simp at h

/-- The term that endings follow keeps its names, unless it is called. -/
theorem extends_endings? : ∀ {fuel t ls u rest}, endings? fuel t ls = some (u, rest) →
    Extends ls rest (ls.head? ≠ some (.op ['('])) t u
  | 0, _, _, _, _, h => by simp [endings?] at h
  | fuel + 1, t, ls, u, rest, h => by
    rw [endings?.eq_def] at h
    dsimp only at h
    split at h
    · split at h
      · have hrest := extends_endings? h
        refine ⟨hrest.suffix.trans (bangs_suffix _), fun n hn => ?_, fun k hk => ?_⟩
        · rcases hrest.plain n hn with ⟨hn, -⟩ | hn
          · exact Or.inl ⟨hn, by simp⟩
          · exact Or.inr (plain_of_suffix hn (bangs_suffix _))
        · exact (hrest.among k hk).imp_right fun hk => (bangs_suffix _).subset hk
      · simp at h
    · rename_i more
      obtain ⟨⟨args, comma, mid⟩, hargs, h⟩ := Option.bind_eq_some_iff.mp h
      have hsees : Sees (.op ['('] :: more) mid (namesOf args) (lexemesOf args) :=
        (sees_members? hargs).skip
      have hrest := extends_endings? h
      refine ⟨hrest.suffix.trans hsees.suffix, fun n hn => Or.inr ?_, fun k hk => ?_⟩
      · rcases hrest.plain n hn with ⟨hn, -⟩ | hn
        · exact hsees.plain n hn
        · exact plain_of_suffix hn hsees.suffix
      · rcases hrest.among k hk with hk | hk
        · exact (List.mem_append.mp hk).imp_right fun hk => hsees.among hk
        · exact Or.inr (hsees.suffix.subset hk)
    · have hrest := extends_endings? h
      have hmid {l k : Lexeme} {ls : List Lexeme} : ls <:+ l :: k :: ls :=
        (List.suffix_cons k ls).trans (List.suffix_cons l _)
      refine ⟨hrest.suffix.trans hmid, fun n hn => Or.inr ?_, fun k hk => ?_⟩
      · rcases hrest.plain n hn with ⟨hn, -⟩ | hn
        · simp [names] at hn
        · exact plain_of_suffix hn hmid
      · exact (hrest.among k hk).imp_right fun hk => hmid.subset hk
    · rename_i hcall _
      obtain ⟨rfl, rfl⟩ := Prod.mk.inj (Option.some.inj h)
      refine ⟨List.suffix_refl _, fun n hn => Or.inl ⟨hn, fun hhead => ?_⟩, fun k hk => Or.inl hk⟩
      obtain ⟨more, rfl⟩ := List.head?_eq_some_iff.mp hhead
      exact hcall more rfl

theorem sees_members? : ∀ {fuel close ls ts comma rest},
    members? fuel close ls = some (ts, comma, rest) → Sees ls rest (namesOf ts) (lexemesOf ts)
  | 0, _, _, _, _, _, h => by simp [members?] at h
  | fuel + 1, close, ls, ts, comma, rest, h => by
    rw [members?.eq_def] at h
    dsimp only at h
    split at h
    · split at h
      · obtain ⟨rfl, -, rfl⟩ := some_triple_inj h
        exact .nil (List.suffix_cons _ _)
      · exact sees_member? h
    · exact sees_member? h

theorem sees_member? : ∀ {fuel close ls ts comma rest},
    member? fuel close ls = some (ts, comma, rest) → Sees ls rest (namesOf ts) (lexemesOf ts)
  | 0, _, _, _, _, _, h => by simp [member?] at h
  | fuel + 1, close, ls, ts, comma, rest, h => by
    rw [member?] at h
    obtain ⟨⟨t, mid⟩, hfirst, h⟩ := Option.bind_eq_some_iff.mp h
    have hsees := sees_expression? hfirst
    dsimp only at h
    split at h
    · split at h
      · obtain ⟨rfl, -, rfl⟩ := some_triple_inj h
        exact hsees.trans (.nil (List.suffix_cons _ _))
      · split at h
        · obtain ⟨⟨ts', comma', rest'⟩, hmore, h⟩ := Option.bind_eq_some_iff.mp h
          obtain ⟨rfl, -, rfl⟩ := some_triple_inj h
          exact hsees.trans (sees_members? hmore).skip
        · simp at h
    · simp at h

theorem sees_displayed? : ∀ {fuel ls ts rest}, displayed? fuel ls = some (ts, rest) →
    Sees ls rest (namesOf ts) (lexemesOf ts)
  | 0, _, _, _, h => by simp [displayed?] at h
  | fuel + 1, ls, ts, rest, h => by
    have hclose {pair : List Term} {behind : List Lexeme}
        (h : (match behind with
          | .op ['\x7d'] :: rest => pure (pair, rest)
          | .op [','] :: rest => do
            let (us, rest) ← displayed? fuel rest
            return (pair ++ us, rest)
          | _ => none) = some (ts, rest))
        (hsees : Sees ls behind (namesOf pair) (lexemesOf pair)) :
        Sees ls rest (namesOf ts) (lexemesOf ts) := by
      split at h
      · obtain ⟨rfl, rfl⟩ := Prod.mk.inj (Option.some.inj h)
        simpa using hsees.trans (.nil (List.suffix_cons _ _))
      · obtain ⟨⟨us, after⟩, hmore, h⟩ := Option.bind_eq_some_iff.mp h
        obtain ⟨rfl, rfl⟩ := Prod.mk.inj (Option.some.inj h)
        rw [namesOf_append, lexemesOf_append]
        exact hsees.trans (sees_displayed? hmore).skip
      · simp at h
    rw [displayed?.eq_def] at h
    dsimp only at h
    split at h
    · obtain ⟨rfl, rfl⟩ := Prod.mk.inj (Option.some.inj h)
      exact .nil (List.suffix_cons _ _)
    · obtain ⟨⟨t, mid⟩, hfirst, h⟩ := Option.bind_eq_some_iff.mp h
      dsimp only at h
      split at h
      · obtain ⟨⟨u, after⟩, hsecond, h⟩ := Option.bind_eq_some_iff.mp h
        refine hclose h ?_
        simpa [namesOf, lexemesOf] using
          (sees_expression? hfirst).trans (sees_expression? hsecond).skip
      · refine hclose h ?_
        simpa [namesOf, lexemesOf] using sees_expression? hfirst

end

theorem sees_toEnd? {comma : Bool} (h : toEnd? fuel ls = some (ts, comma)) :
    (∀ n ∈ namesOf ts, Plain n ls) ∧ lexemesOf ts ⊆ ls := by
  induction fuel generalizing ls ts comma with
  | zero => simp [toEnd?] at h
  | succ fuel ih =>
    rw [toEnd?] at h
    obtain ⟨⟨t, mid⟩, hfirst, h⟩ := Option.bind_eq_some_iff.mp h
    have hsees := sees_expression? hfirst
    have hone : (∀ n ∈ namesOf [t], Plain n ls) ∧ lexemesOf [t] ⊆ ls := by
      simpa [namesOf, lexemesOf] using And.intro hsees.plain hsees.among
    dsimp only at h
    split at h
    · obtain ⟨rfl, -⟩ := Prod.mk.inj (Option.some.inj h)
      exact hone
    · obtain ⟨rfl, -⟩ := Prod.mk.inj (Option.some.inj h)
      exact hone
    · split at h
      · obtain ⟨rfl, -⟩ := Prod.mk.inj (Option.some.inj h)
        exact hone
      · obtain ⟨⟨us, comma'⟩, hmore, h⟩ := Option.bind_eq_some_iff.mp h
        obtain ⟨rfl, -⟩ := Prod.mk.inj (Option.some.inj h)
        obtain ⟨hplain, hamong⟩ := ih hmore
        have hrest := (List.suffix_cons (Lexeme.op [',']) _).trans hsees.suffix
        refine ⟨fun n hn => ?_, List.append_subset.mpr
          ⟨hsees.among, List.Subset.trans hamong hrest.subset⟩⟩
        rcases List.mem_append.mp hn with hn | hn
        · exact hsees.plain n hn
        · exact plain_of_suffix (hplain n hn) hrest
    · simp at h

/-- What a text spells, with the lexemes that it is read from. -/
theorem read_of_ofText? {s : Text} (h : ofText? s = some t) :
    ∃ ls, Lexeme.ofText? s = some ls ∧ (∀ n ∈ t.names, Plain n ls) ∧ t.lexemes ⊆ ls := by
  obtain ⟨ls, hls, h⟩ := Option.bind_eq_some_iff.mp h
  obtain ⟨⟨ts, comma⟩, hts, h⟩ := Option.bind_eq_some_iff.mp h
  obtain rfl := Option.some.inj h
  obtain ⟨hplain, hamong⟩ := sees_toEnd? hts
  exact ⟨ls, hls, fun n hn => hplain n (names_group hn), List.Subset.trans lexemes_group hamong⟩

/-- The names of the term that a text spells are words of the text with no bracket behind. -/
theorem wordIn_of_ofText? {s : Text} (h : ofText? s = some t) (hn : n ∈ t.names) :
    Text.IsName n ∧ ∃ after, Text.WordIn n after s ∧ ¬ Formula.Leads after := by
  obtain ⟨ls, hls, hplain, -⟩ := read_of_ofText? h
  exact Lexeme.wordIn_of_ofText? hls (hplain n hn)

end Formulary.Term
