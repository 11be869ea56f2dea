import Formulary.Proofs.Formula.Pieces

/-! # Products between pieces

Writing products out spreads a sequence of pieces: between two operands stands a
piece `*` instead of blanks. What follows a piece changes at its front only from a
blank or an operand to `*`, so every piece is still cut off where it was.
-/

namespace Formulary.Formula

open Text (Stops)

variable {known : Name → Bool} {left : Option TokenKind} {blanks : Text} {ps : List Piece}

/-- The kind of the first piece that is not blank. -/
def nextKind? (ps : List Piece) : Option TokenKind :=
  (ps.find? fun p => p.1 ≠ .space).map (·.1)

/-- Nothing to multiply with stands next to an operand of kind `left`. -/
def ApartFrom (left : Option TokenKind) (ps : List Piece) : Prop :=
  ∀ l ∈ left, ∀ k ∈ nextKind? ps, multiplies l k = false

/-- No two operands stand side by side. -/
def Apart : List Piece → Prop
  | [] => True
  | p :: ps => ApartFrom (some p.1) ps ∧ Apart ps

/-- Blanks as a piece, unless there are none. -/
def gap (blanks : Text) : List Piece := if blanks = [] then [] else [(.space, blanks)]

/-- What stands between operands: blanks, or `*` in their place. -/
def between (left : Option TokenKind) (blanks : Text) (k : TokenKind) : List Piece :=
  if left.any (multiplies · k) then [(.other, ['*'])] else gap blanks

/-- The pieces with `*` between operands. -/
def spread (left : Option TokenKind) (blanks : Text) : List Piece → List Piece
  | [] => gap blanks
  | p :: ps =>
    if p.1 = .space then spread left p.2 ps
    else between left blanks p.1 ++ p :: spread (some p.1) [] ps

@[simp] theorem written_gap : written (gap blanks) = blanks := by
  unfold gap
  split
  · simp [*]
  · simp

theorem spread_cons {p : Piece} (hp : p.1 ≠ .space) :
    spread left blanks (p :: ps) = between left blanks p.1 ++ p :: spread (some p.1) [] ps := by
  rw [spread, if_neg hp]

/-- Nothing is put before a stray piece. -/
theorem spread_stray {w : Text} : spread left [] [(.other, w)] = [(.other, w)] := by
  cases left <;> simp [spread, between, multiplies, startsOperand, gap]

/-- Spreading the pieces is what writing the products out does to the tokens. -/
theorem writeProducts_lay (i : Nat) :
    writeProducts left blanks (lay i ps) = written (spread left blanks ps) := by
  induction ps generalizing left blanks i with
  | nil => simp [lay, writeProducts, spread]
  | cons p ps ih =>
    by_cases hp : p.1 = .space
    · rw [spread, if_pos hp, ← ih (i + p.2.length)]
      simp [lay, writeProducts, hp]
    · rw [spread_cons hp, written_append, written_cons, ← ih (i + p.2.length)]
      cases left with
      | none => simp [lay, writeProducts, hp, between]
      | some l =>
        by_cases hm : multiplies l p.1 = true <;> simp [lay, writeProducts, hp, between, hm]

/-! ### The pieces are apart -/

theorem multiplies_other (l : TokenKind) : multiplies l .other = false := by
  simp [multiplies, startsOperand]

theorem nextKind?_gap : nextKind? (gap blanks ++ ps) = nextKind? ps := by
  unfold gap
  split <;> simp [nextKind?]

theorem nextKind?_cons {p : Piece} (hp : p.1 ≠ .space) : nextKind? (p :: ps) = some p.1 := by
  simp [nextKind?, hp]

theorem nextKind?_space {w : Text} : nextKind? ((.space, w) :: ps) = nextKind? ps := by
  simp [nextKind?]

theorem apartFrom_space {w : Text} : ApartFrom left ((.space, w) :: ps) ↔ ApartFrom left ps := by
  rw [ApartFrom, ApartFrom, nextKind?_space]

theorem apart_gap : Apart (gap blanks) := by
  unfold gap
  split <;> simp [Apart, ApartFrom, nextKind?]

theorem Apart.cons {p : Piece} (h : Apart ps) (hp : endsOperand p.1 = false) : Apart (p :: ps) := by
  refine ⟨fun l hl k _ => ?_, h⟩
  obtain rfl : p.1 = l := by simpa using hl
  simp [multiplies, hp]

theorem apart_between_append {k : TokenKind} (h : Apart ps) :
    Apart (between left blanks k ++ ps) := by
  unfold between gap
  split
  · exact h.cons rfl
  · split
    · exact h
    · exact h.cons rfl

theorem apartFrom_between {p : Piece} {qs : List Piece} (hp : p.1 ≠ .space) :
    ApartFrom left (between left blanks p.1 ++ p :: qs) := by
  intro l hl k hk
  unfold between at hk
  split at hk
  case isTrue =>
    obtain rfl : .other = k := by simpa [nextKind?] using hk
    exact multiplies_other l
  case isFalse hm =>
    rw [nextKind?_gap, nextKind?_cons hp] at hk
    obtain rfl : p.1 = k := by simpa using hk
    obtain rfl : left = some l := hl
    simpa using hm

theorem apart_spread : ApartFrom left (spread left blanks ps) ∧ Apart (spread left blanks ps) := by
  induction ps generalizing left blanks with
  | nil =>
    refine ⟨fun l _ k hk => ?_, apart_gap⟩
    rw [spread, ← List.append_nil (gap blanks), nextKind?_gap] at hk
    simp [nextKind?] at hk
  | cons p ps ih =>
    by_cases hp : p.1 = .space
    · rw [spread, if_pos hp]
      exact ih
    · rw [spread_cons hp]
      exact ⟨apartFrom_between hp, apart_between_append ih⟩

/-! ### The pieces are still read -/

theorem Reads.space {w : Text} (h : Reads known ((.space, w) :: ps)) :
    (∀ b ∈ w, Text.isBlank b = true) ∧ Stops Text.isBlank (written ps) ∧ Reads known ps := by
  cases h with
  | plain hcut hps =>
    cases hcut with
    | space hc hw ha => exact ⟨by simpa using ⟨hc, hw⟩, ha, hps⟩

theorem Reads.of_cons {p : Piece} (h : Reads known (p :: ps)) (hp : p.1 = .space) :
    ∃ w, p = (.space, w) ∧ (∀ b ∈ w, Text.isBlank b = true) ∧ Stops Text.isBlank (written ps) ∧
      Reads known ps := by
  obtain ⟨k, w⟩ := p
  obtain rfl : k = .space := hp
  exact ⟨w, rfl, h.space⟩

theorem prefix_append_of_prefix {u a x y : Text} (hu : u <+: a ++ x)
    (h : ∀ v, v <:+ u → v <+: x → v <+: y) : u <+: a ++ y := by
  induction a generalizing u with
  | nil => exact h u (List.suffix_refl u) hu
  | cons c a ih =>
    cases u with
    | nil => exact List.nil_prefix
    | cons d u =>
      obtain ⟨hd, htail⟩ := List.cons_prefix_cons.mp hu
      exact List.cons_prefix_cons.mpr
        ⟨hd, ih htail fun v hv => h v (hv.trans (List.suffix_cons _ _))⟩

/-- Blanks that wait before the pieces are all the blanks there. -/
def Waits (blanks : Text) (ps : List Piece) : Prop :=
  (∀ b ∈ blanks, Text.isBlank b = true) ∧ (blanks ≠ [] → Stops Text.isBlank (written ps))

theorem waits_nil : Waits [] ps := ⟨by simp, by simp⟩

theorem Waits.eq_nil {p : Piece} (h : Waits blanks (p :: ps)) (hps : Reads known (p :: ps))
    (hp : p.1 = .space) : blanks = [] := by
  by_contra hb
  obtain ⟨c, w, hw, hc⟩ := hps.starts
  have hstop := h.2 hb c (by simp [hw])
  rw [hc.isBlank_iff.mpr hp] at hstop
  exact absurd hstop (by decide)

theorem prefix_of_prefix_between {u : Text} {p : Piece} {qs : List Piece} (hu : '*' ∉ u)
    (h : u <+: written (between left blanks p.1 ++ p :: qs))
    (hrest : ∀ v, '*' ∉ v → v <+: written qs → v <+: written ps) :
    u <+: blanks ++ written (p :: ps) := by
  rw [written_append, written_cons, between] at h
  split at h
  case isTrue =>
    cases u with
    | nil => exact List.nil_prefix
    | cons d u =>
      obtain rfl : d = '*' := (List.cons_prefix_cons.mp h).1
      simp at hu
  case isFalse =>
    rw [written_gap, ← List.append_assoc] at h
    rw [written_cons, ← List.append_assoc]
    exact prefix_append_of_prefix h fun v hv => hrest v fun hm => hu (hv.mem hm)

/-- As far as no `*` was put in, the text is the old one. -/
theorem prefix_of_prefix_spread {u : Text} (hps : Reads known ps) (hb : Waits blanks ps)
    (hu : '*' ∉ u) (h : u <+: written (spread left blanks ps)) : u <+: blanks ++ written ps := by
  induction hps generalizing left blanks u with
  | nil => simpa [spread] using h
  | @call name ps _ _ _ _ ih =>
    rw [spread_cons (by simp)] at h
    exact prefix_of_prefix_between hu h fun v hv hpre => ih waits_nil hv hpre
  | @plain k c w ps hcut hps ih =>
    by_cases hk : k = .space
    · subst hk
      obtain rfl := hb.eq_nil (.plain hcut hps) rfl
      obtain ⟨hw, hstop, -⟩ := (Reads.plain hcut hps).space
      exact ih ⟨hw, fun _ => hstop⟩ hu (by simpa [spread] using h)
    · rw [spread_cons hk] at h
      exact prefix_of_prefix_between hu h fun v hv hpre => ih waits_nil hv hpre
  | tail =>
    rw [spread_cons (by simp)] at h
    exact prefix_of_prefix_between hu h fun v _ hpre => by rwa [spread_stray] at hpre

theorem head?_spread {c : Char} (hps : Reads known ps)
    (hc : c ∈ (written (spread left [] ps)).head?) : c = '*' ∨ c ∈ (written ps).head? := by
  by_cases hstar : c = '*'
  · exact Or.inl hstar
  · obtain ⟨rest, hrest⟩ := List.head?_eq_some_iff.mp hc
    have hin : [c] <+: written (spread left [] ps) := hrest ▸ List.prefix_append [c] rest
    obtain ⟨rest', hrest'⟩ :=
      prefix_of_prefix_spread hps waits_nil (by simp [Ne.symm hstar]) hin
    exact Or.inr (by rw [← List.nil_append (written ps), ← hrest']; rfl)

/-- A class without `*` still stops where it stopped. -/
theorem stops_spread {p : Char → Bool} (hps : Reads known ps) (hp : p '*' = false)
    (h : Stops p (written ps)) : Stops p (written (spread left [] ps)) := by
  intro c hc
  rcases head?_spread hps hc with rfl | hc
  · exact hp
  · exact h c hc

/-- The rules that cut pieces off hold before the spread pieces too. -/
theorem Cut.spread {k : TokenKind} {c : Char} {w : Text} (h : Cut k c w (written ps))
    (hps : Reads known ps) (hk : k ≠ .space) : Cut k c w (written (spread left [] ps)) := by
  cases h with
  | space => exact absurd rfl hk
  | number hc hw =>
    refine .number hc (takeNumber_congr hw fun d hd => (head?_spread hps hd).imp_left ?_)
    rintro rfl
    exact ⟨by decide, by decide⟩
  | subscripted n hc hcontent ha =>
    exact .subscripted n hc hcontent (stops_spread hps (by decide) ha)
  | letter n hc ha hopen =>
    refine .letter n hc (stops_spread hps (by decide) ha) fun hn body he => ?_
    have hin : ['_', '{'] <+: written (Formula.spread left [] ps) :=
      he ▸ List.prefix_append ['_', '{'] body
    obtain ⟨body', hbody⟩ := prefix_of_prefix_spread hps waits_nil (by decide) hin
    exact hopen hn body' (by simpa using hbody.symm)
  | opening hc => exact .opening hc
  | closing hc => exact .closing hc
  | other hc ha => exact .other hc fun hdot => stops_spread hps (by decide) (ha hdot)

theorem leads_append_congr {a x y : Text} (ha : ∃ c ∈ a, isGap c = false)
    (h : Leads (a ++ x)) : Leads (a ++ y) := by
  have hne : a.dropWhile isGap ≠ [] := by simpa [List.dropWhile_eq_nil_iff] using ha
  obtain ⟨d, rest, hd⟩ := List.exists_cons_of_ne_nil hne
  unfold Leads at h ⊢
  rw [List.dropWhile_append, hd] at h ⊢
  simpa using h

theorem isBlank_of_isGap {c : Char} (h : isGap c = true) : Text.isBlank c = true := by
  rcases (Bool.or_eq_true _ _).mp h with h | h <;>
    · obtain rfl := beq_iff_eq.mp h
      decide

theorem Starts.isGap {k : TokenKind} {c : Char} (h : Starts k c) (hk : k ≠ .space) :
    isGap c = false := by
  rw [Bool.eq_false_iff]
  intro hc
  exact hk (h.isBlank_iff.mp (isBlank_of_isGap hc))

theorem between_func {k : TokenKind} : between (some .func) blanks k = gap blanks := rfl

/-- The bracket of a call still follows its name. -/
theorem leads_spread (hps : Reads known ps) (hb : Waits blanks ps)
    (h : Leads (blanks ++ written ps)) : Leads (written (spread (some .func) blanks ps)) := by
  have hstep : ∀ {p : Piece} {ps : List Piece} {blanks : Text}, Reads known (p :: ps) →
      p.1 ≠ .space → Leads (blanks ++ written (p :: ps)) →
      Leads (written (spread (some .func) blanks (p :: ps))) := by
    intro p ps blanks hps hp h
    obtain ⟨c, w, hw, hc⟩ := hps.starts
    rw [spread_cons hp, between_func, written_append, written_gap, written_cons,
      ← List.append_assoc]
    rw [written_cons, ← List.append_assoc] at h
    exact leads_append_congr ⟨c, by simp [hw], hc.isGap hp⟩ h
  cases ps with
  | nil => simpa [spread] using h
  | cons p ps =>
    by_cases hp : p.1 = .space
    · obtain rfl := hb.eq_nil hps hp
      obtain ⟨w, rfl, hw, hstop, hps⟩ := hps.of_cons hp
      rw [spread, if_pos rfl]
      cases ps with
      | nil => simpa [spread] using h
      | cons q qs =>
        have hq : q.1 ≠ .space := by
          intro hq
          obtain ⟨c, v, hv, hc⟩ := hps.starts
          have := hstop c (by simp [hv])
          simp [hc.isBlank_iff.mpr hq] at this
        exact hstep hps hq h
    · exact hstep hps hp h

theorem Reads.between {p : Piece} {qs : List Piece} (h : Reads known (p :: qs))
    (hp : p.1 ≠ .space) (hb : ∀ b ∈ blanks, Text.isBlank b = true) :
    Reads known (between left blanks p.1 ++ p :: qs) := by
  unfold Formula.between gap
  split
  · have hstar : IsOther '*' := ⟨by decide, by decide, by decide, by decide, by decide⟩
    exact .plain (.other hstar fun hdot => absurd hdot (by decide)) h
  · split
    · exact h
    · obtain ⟨b, w, rfl⟩ := List.exists_cons_of_ne_nil ‹blanks ≠ []›
      obtain ⟨c, v, hv, hc⟩ := h.starts
      have hstop : Stops Text.isBlank (written (p :: qs)) := by
        intro d hd
        obtain rfl : c = d := by simpa [hv] using hd
        rw [Bool.eq_false_iff]
        exact fun hblank => hp (hc.isBlank_iff.mp hblank)
      exact .plain (.space (hb b (by simp)) (fun d hd => hb d (by simp [hd])) hstop) h

/-- The spread pieces are the tokens of a text again. -/
theorem Reads.spread (h : Reads known ps) (hb : Waits blanks ps) :
    Reads known (spread left blanks ps) := by
  induction h generalizing left blanks with
  | nil =>
    unfold Formula.spread gap
    split
    · exact .nil
    · obtain ⟨b, w, rfl⟩ := List.exists_cons_of_ne_nil ‹blanks ≠ []›
      exact .plain (.space (hb.1 b (by simp)) (fun d hd => hb.1 d (by simp [hd])) (by simp [Stops]))
        .nil
  | @call name ps hname hk hl hps ih =>
    rw [spread_cons (by simp)]
    refine Reads.between (.call hname hk ?_ (ih waits_nil)) (by simp) hb.1
    exact leads_spread hps waits_nil hl
  | @plain k c w ps hcut hps ih =>
    by_cases hk : k = .space
    · subst hk
      obtain ⟨hw, hstop, -⟩ := (Reads.plain hcut hps).space
      rw [Formula.spread, if_pos rfl]
      exact ih ⟨hw, fun _ => hstop⟩
    · rw [spread_cons hk]
      exact Reads.between (.plain (hcut.spread hps hk) (ih waits_nil)) hk hb.1
  | @tail c body hc hcut =>
    rw [spread_cons (by simp)]
    exact Reads.between (.tail hc hcut) (by simp) hb.1

end Formulary.Formula
