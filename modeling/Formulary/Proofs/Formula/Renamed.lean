import Mathlib.Data.List.Forall2
import Formulary.Proofs.Formula.WrittenOut
import Formulary.Proofs.Head.Name

/-! # Another name for an atom

A formula may have another name in place of one of its atoms. Written out with products,
and without a low line that could begin a subscript, it is cut where it was: the tokens
are those of the formula, with the other name.
-/

namespace Formulary.Formula

open Text (Stops)

variable {lex : Lexicon} {functions : List Name} {known : Name → Bool} {k : TokenKind} {c : Char}
  {w after after' u v v' : Text} {p q : Name} {ps : List Piece} {y : Symbol}

/-- The same token, or the other name in place of the one. -/
structure SameBut (p q : Name) (k k' : Token) : Prop where
  kind : k'.kind = k.kind
  text : k'.text = if k.kind = .atom ∧ k.text = p then q else k.text

/-- The piece, or the other name in place of the one. -/
def renamePiece (p q : Name) (x : Piece) : Piece := (x.1, if x.1 = .atom ∧ x.2 = p then q else x.2)

/-- The formula with another name in place of each atom of a name. -/
def rename (lex : Lexicon) (functions : List Name) (p q : Name) (t : Text) : Text :=
  written ((tokens lex functions t).map fun k => renamePiece p q (k.kind, k.text))

/-! ### What follows a piece -/

/-- The second text starts as the first does, or with a letter; it does not start with a low line.
-/
structure FollowsAlike (after after' : Text) : Prop where
  head : ∀ d ∈ after'.head?, isLetter d = true ∨ d ∈ after.head?
  low : after'.head? ≠ some '_'

theorem FollowsAlike.stops {f : Char → Bool} (h : FollowsAlike after after') (hf : ∀ d, isLetter d =
    true → f d = false)
    (ha : Stops f after) : Stops f after' := fun d hd => (h.head d hd).elim (hf d) (ha d)

theorem isMark_of_isLetter (h : isLetter c = true) : isMark c = false := by
  simpa [isMark] using ne_of_isLetter h (by decide : isLetter '\'' = false)

theorem Cut.congr (h : Cut k c w after) (ha : FollowsAlike after after') : Cut k c w after' := by
  have hmark : Stops isMark after → Stops isMark after' := ha.stops fun _ => isMark_of_isLetter
  cases h with
  | space hc hw hstop => exact .space hc hw (ha.stops (fun _ => isBlank_of_isLetter) hstop)
  | number hc hw =>
    refine .number hc (takeNumber_congr hw fun d hd => (ha.head d hd).imp_left fun hletter => ?_)
    exact ⟨isAsciiDigit_of_isLetter hletter, ne_of_isLetter hletter (by decide)⟩
  | subscripted n hc hcontent hstop => exact .subscripted n hc hcontent (hmark hstop)
  | letter n hc hstop =>
    refine .letter n hc (hmark hstop) fun _ body he => ?_
    exact ha.low (by rw [he]; rfl)
  | opening hc => exact .opening hc
  | closing hc => exact .closing hc
  | other hc hstop =>
    exact .other hc fun hdot => ha.stops (fun _ => isAsciiDigit_of_isLetter) (hstop hdot)

/-- The name of a symbol is cut off where another name was. -/
theorem Cut.renamed (h : Cut .atom c w after) (hy : y.Proper) (ha : FollowsAlike after after') :
    Cut .atom y.letter y.name.tail after' := by
  have hmark : Stops isMark after' := ha.stops (fun _ => isMark_of_isLetter) <| by
    cases h with
    | subscripted _ _ _ hstop => exact hstop
    | letter _ _ hstop => exact hstop
  obtain ⟨letter, subscript, n⟩ := y
  cases subscript with
  | none =>
    refine .letter n hy.letter hmark fun _ body he => ?_
    exact ha.low (by rw [he]; rfl)
  | some content => exact .subscripted n hy.letter (hy.subscript content rfl).2 hmark

theorem Leads.append_congr (hv : Leads v → Leads v') (h : Leads (u ++ v)) : Leads (u ++ v') := by
  induction u with
  | nil => exact hv h
  | cons d u ih =>
    cases hd : isGap d with
    | true =>
      have hdrop (t : Text) : Leads (d :: t) ↔ Leads t := by simp [Leads, hd]
      exact (hdrop _).mpr (ih ((hdrop _).mp h))
    | false =>
      rw [List.cons_append, leads_cons hd] at h ⊢
      exact h

/-! ### Pieces with the other name -/

/-- No stray piece holds a low line. -/
def NoLow (ps : List Piece) : Prop := ∀ x ∈ ps, x.1 = .other → '_' ∉ x.2

theorem renamePiece_snd (h : ¬ (k = .atom ∧ w = p)) : renamePiece p q (k, w) = (k, w) := by
  rw [renamePiece, if_neg h]

theorem Starts.ne_low (h : Starts k c) (hk : k ≠ .other) : c ≠ '_' := by
  rintro rfl
  cases k with
  | space => exact absurd (show Text.isBlank '_' = true from h) (by decide)
  | number => exact absurd h (by simp [Starts]; decide)
  | atom => exact absurd (show isLetter '_' = true from h) (by decide)
  | func => exact absurd (show isLetter '_' = true from h) (by decide)
  | opening => exact absurd (show ('_' == '(' || '_' == '[') = true from h) (by decide)
  | closing => exact absurd (show ('_' == ')' || '_' == ']') = true from h) (by decide)
  | other => exact hk rfl

theorem Reads.followsAlike (h : Reads known ps) (hlow : NoLow ps) (hy : y.Proper) :
    FollowsAlike (written ps) (written (ps.map (renamePiece p y.name))) := by
  cases ps with
  | nil => exact ⟨by simp, by simp⟩
  | cons x ps =>
    obtain ⟨k, w⟩ := x
    obtain ⟨d, v, rfl, hd⟩ := h.starts
    rw [List.map_cons, written_cons, written_cons]
    by_cases hx : k = .atom ∧ d :: v = p
    · have hletter : y.letter ≠ '_' := ne_of_isLetter hy.letter (by decide)
      have hname : (renamePiece p y.name (k, d :: v)).2 = y.letter :: y.name.tail := by
        rw [renamePiece, if_pos hx]
        rfl
      rw [hname]
      exact ⟨by simp [hy.letter], by simpa using hletter⟩
    · rw [renamePiece_snd hx]
      refine ⟨by simp, ?_⟩
      have hne : d ≠ '_' := by
        by_cases hk : k = .other
        · rintro rfl
          exact hlow _ List.mem_cons_self hk List.mem_cons_self
        · exact hd.ne_low hk
      simpa using hne

theorem Reads.leads_renamed (h : Reads known ps) (hl : Leads (written ps)) :
    Leads (written (ps.map (renamePiece p q))) := by
  have hatom {c : Char} {w rest : Text} (hc : isLetter c = true) (hl : Leads (c :: w ++ rest)) :
      False := by
    rw [List.cons_append, leads_cons ((show Starts .atom c from hc).isGap (by simp))] at hl
    subst hl
    exact absurd hc (by decide)
  induction h with
  | nil => exact hl
  | @call name ps hname _ _ _ ih =>
    rw [List.map_cons, renamePiece_snd (by simp)]
    exact Leads.append_congr ih hl
  | @plain k c w ps hcut _ ih =>
    by_cases hx : k = .atom ∧ c :: w = p
    · obtain ⟨rfl, -⟩ := hx
      exact (hatom hcut.starts hl).elim
    · rw [List.map_cons, renamePiece_snd hx]
      exact Leads.append_congr ih hl
  | tail hc => exact (hatom (w := []) hc hl).elim

/-- With another name in place of an atom, the pieces are the tokens of a text again. -/
theorem Reads.renamed (h : Reads known ps) (hlow : NoLow ps) (hy : y.Proper) :
    Reads known (ps.map (renamePiece p y.name)) := by
  induction h with
  | nil => exact .nil
  | @call name ps hname hk hl hps ih =>
    rw [List.map_cons, renamePiece_snd (by simp)]
    exact .call hname hk (hps.leads_renamed hl) (ih fun x hx => hlow x (List.mem_cons_of_mem _ hx))
  | @plain k c w ps hcut hps ih =>
    have hrest : NoLow ps := fun x hx => hlow x (List.mem_cons_of_mem _ hx)
    have ha := hps.followsAlike (p := p) hrest hy
    rw [List.map_cons]
    by_cases hx : k = .atom ∧ c :: w = p
    · have hpiece : renamePiece p y.name (k, c :: w) = (.atom, y.letter :: y.name.tail) := by
        rw [renamePiece, if_pos hx, hx.1]
        rfl
      rw [hpiece]
      obtain ⟨rfl, -⟩ := hx
      exact .plain (hcut.renamed hy ha) (ih hrest)
    · rw [renamePiece_snd hx]
      exact .plain (hcut.congr ha) (ih hrest)
  | tail => exact absurd (hlow _ (List.mem_cons_of_mem _ List.mem_cons_self) rfl) (by simp)

theorem nextKind?_renamed (ps : List Piece) :
    nextKind? (ps.map (renamePiece p q)) = nextKind? ps := by
  rw [nextKind?, nextKind?, List.find?_map, Option.map_map]
  rfl

theorem apart_renamed (h : Apart ps) : Apart (ps.map (renamePiece p q)) := by
  induction ps with
  | nil => exact h
  | cons x ps ih =>
    refine ⟨?_, ih h.2⟩
    rw [ApartFrom, nextKind?_renamed]
    exact h.1

theorem sameBut_lay (ps : List Piece) (i j : Nat) :
    List.Forall₂ (SameBut p q) (lay i ps) (lay j (ps.map (renamePiece p q))) := by
  induction ps generalizing i j with
  | nil => exact .nil
  | cons x ps ih => exact .cons ⟨rfl, rfl⟩ (ih _ _)

/-- The tokens of a formula that has another name for an atom. -/
theorem tokens_rename (hps : Reads (isCallable lex functions) ps) (ha : Apart ps) (hlow : NoLow ps)
    (hy : y.Proper) :
    List.Forall₂ (SameBut p y.name) (tokens lex functions (written ps))
      (tokens lex functions (rename lex functions p y.name (written ps))) := by
  have htokens := tokens_written hps ha
  have hrename :
      rename lex functions p y.name (written ps) = written (ps.map (renamePiece p y.name)) := by
    have hmap := congrArg (List.map (renamePiece p y.name)) (map_lay 0 ps)
    rw [List.map_map] at hmap
    rw [rename, htokens, ← hmap]
    rfl
  rw [hrename, htokens, tokens_written (hps.renamed hlow hy) (apart_renamed ha)]
  exact sameBut_lay ps 0 0

end Formulary.Formula
