import Formulary.Head.Basic
import Formulary.Proofs.Head.Token

/-! # Reading a name

A name is spelled as one letter, a subscript in braces and prime marks. The reader of
names takes the tokens of one name, and takes all of them.
-/

namespace Formulary

namespace Symbol

/-- One letter; a subscript is not blank and ends at its closing brace. -/
structure Proper (s : Symbol) : Prop where
  letter : isLetter s.letter = true
  subscript : ∀ content ∈ s.subscript, Text.isBlankText content = false ∧ '}' ∉ content

/-- The words a name is spelled with: its letter, its subscript in braces, each mark. -/
def words (s : Symbol) : List Text :=
  [s.letter] :: ((s.subscript.map subscriptText).toList ++ List.replicate s.primes ['\''])

theorem flatten_words (s : Symbol) : s.words.flatten = s.name := by
  cases hs : s.subscript <;> simp [words, name, hs]

/-- A name of one character is a letter alone. -/
theorem eq_of_name {s : Symbol} {c : Char} (h : s.name = [c]) : s = ⟨c, none, 0⟩ := by
  obtain ⟨letter, subscript, n⟩ := s
  obtain ⟨rfl, hrest⟩ := List.cons.inj h
  cases subscript with
  | some content => simp [subscriptText] at hrest
  | none =>
    obtain rfl : n = 0 := by simpa using hrest
    rfl

end Symbol

namespace Head

variable {lex : Lexicon} {source : Text} {role : NameRole} {ts rest : List Token} {ps : List Piece}
  {s : Symbol} {n : Nat}

def mark : Piece := (.prime, ['\''])

def piecesOf (s : Symbol) : List Piece :=
  (.letter, [s.letter]) ::
    ((s.subscript.map fun content => (TokenKind.subscript, content)).toList ++
      List.replicate s.primes mark)

theorem isPiece_piecesOf {s : Symbol} (hs : s.Proper) : ∀ p ∈ piecesOf s, IsPiece p := by
  have hletter : IsPiece (kindOf s.letter, [s.letter]) :=
    .char (isBlank_of_isLetter hs.letter) (ne_of_isLetter hs.letter (by decide))
  rw [kindOf_of_isLetter hs.letter] at hletter
  have hmark : IsPiece mark := .char (c := '\'') (by decide) (by decide)
  refine List.forall_mem_cons.mpr ⟨hletter, fun p hp => ?_⟩
  rcases List.mem_append.mp hp with hp | hp
  · obtain ⟨content, hcontent, rfl⟩ := Option.map_eq_some_iff.mp (Option.mem_toList.mp hp)
    obtain ⟨hblank, hbrace⟩ := hs.subscript content hcontent
    exact .subscript hblank hbrace
  · obtain rfl := List.eq_of_mem_replicate hp
    exact hmark

@[simp] theorem map_written_piecesOf (s : Symbol) : (piecesOf s).map written = s.words := by
  cases hs : s.subscript <;> simp [piecesOf, Symbol.words, hs, written, mark]

/-- What can follow a name: nothing, a bracket or a comma. -/
def Delimits (ps : List Piece) : Prop := ∀ p ∈ ps.head?, p.1 ∈ [TokenKind.lparen, .rparen, .comma]

theorem Delimits.ne {k : TokenKind} (h : Delimits ps)
    (hk : k ∉ [TokenKind.lparen, .rparen, .comma]) :
    ∀ p ∈ ps.head?, p.1 ≠ k := by
  rintro p hp rfl
  exact hk (h p hp)

/-- The letter of a name is followed by no other letter and no stray character. -/
theorem Delimits.after_letter (h : Delimits ps) (subscript : Option Text) :
    ∀ p ∈ ((subscript.map fun content => (TokenKind.subscript, content)).toList ++
      (List.replicate n mark ++ ps)).head?, p.1 ≠ .letter ∧ p.1 ≠ .other := by
  cases subscript with
  | some content => simp
  | none =>
    cases n with
    | zero => exact fun p hp => ⟨h.ne (by decide) p hp, h.ne (by decide) p hp⟩
    | succ n => simp [List.replicate_succ, mark]

theorem Delimits.after_subscript (h : Delimits ps) :
    ∀ p ∈ (List.replicate n mark ++ ps).head?, p.1 ≠ .subscript := by
  cases n with
  | zero => exact h.ne (by decide)
  | succ n => simp [List.replicate_succ, mark]

theorem IsPiece.exists_letter {p : Piece} (h : IsPiece p) (hk : p.1 = .letter) :
    ∃ c, p = (.letter, [c]) ∧ isLetter c = true := by
  cases h with
  | subscript => simp at hk
  | @char c => exact ⟨c, Prod.ext hk rfl, isLetter_of_kindOf hk⟩

theorem IsPiece.of_subscript {content : Text} (h : IsPiece (.subscript, content)) :
    Text.isBlankText content = false ∧ '}' ∉ content := by
  generalize hp : ((.subscript, content) : Piece) = p at h
  cases h with
  | subscript hblank hbrace =>
    obtain rfl := (Prod.mk.inj hp).2
    exact ⟨hblank, hbrace⟩
  | char => exact absurd (Prod.mk.inj hp).1.symm (kindOf_ne_subscript _)

theorem IsPiece.eq_of_kind {p : Piece} {c : Char} (h : IsPiece p) (hk : p.1 ≠ .subscript)
    (hc : ∀ d, kindOf d = p.1 → d = c) : p = (p.1, [c]) := by
  cases h with
  | subscript => exact absurd rfl hk
  | @char d => rw [hc d rfl]

theorem IsPiece.eq_mark {p : Piece} (h : IsPiece p) (hk : p.1 = .prime) : p = mark := by
  have := h.eq_of_kind (by simp [hk]) fun d hd => eq_of_kindOf.2.2.2 (hd.trans hk)
  rwa [hk] at this

theorem IsPiece.eq_comma {p : Piece} (h : IsPiece p) (hk : p.1 = .comma) : p = (.comma, [',']) := by
  have := h.eq_of_kind (by simp [hk]) fun d hd => eq_of_kindOf.2.2.1 (hd.trans hk)
  rwa [hk] at this

theorem IsPiece.eq_lparen {p : Piece} (h : IsPiece p) (hk : p.1 = .lparen) :
    p = (.lparen, ['(']) := by
  have := h.eq_of_kind (by simp [hk]) fun d hd => eq_of_kindOf.1 (hd.trans hk)
  rwa [hk] at this

theorem IsPiece.eq_rparen {p : Piece} (h : IsPiece p) (hk : p.1 = .rparen) :
    p = (.rparen, [')']) := by
  have := h.eq_of_kind (by simp [hk]) fun d hd => eq_of_kindOf.2.1 (hd.trans hk)
  rwa [hk] at this

/-! ### Reading a name -/

theorem takePrimes_eq (hts : ∀ p ∈ ts.map Token.piece, IsPiece p) :
    ts.map Token.piece =
      List.replicate (takePrimes ts).1 mark ++ (takePrimes ts).2.map Token.piece := by
  induction ts with
  | nil => rfl
  | cons t ts ih =>
    obtain ⟨ht, hrest⟩ := List.forall_mem_cons.mp hts
    unfold takePrimes
    split
    case isFalse => rfl
    case isTrue hk => simp [List.replicate_succ, ht.eq_mark hk, ← ih hrest]

theorem takePrimes_of_map (h : ts.map Token.piece = List.replicate n mark ++ ps)
    (hps : ∀ p ∈ ps.head?, p.1 ≠ .prime) :
    ∃ rest, takePrimes ts = (n, rest) ∧ rest.map Token.piece = ps := by
  induction n generalizing ts with
  | zero =>
    obtain rfl : ts.map Token.piece = ps := h
    refine ⟨ts, ?_, rfl⟩
    cases ts with
    | nil => rfl
    | cons t ts => exact if_neg (hps t.piece rfl)
  | succ n ih =>
    rw [List.replicate_succ, List.cons_append, List.map_eq_cons_iff] at h
    obtain ⟨t, ts, rfl, ht, hrest⟩ := h
    obtain ⟨rest, htake, hmap⟩ := ih hrest
    have hk : t.kind = .prime := congrArg Prod.fst ht
    exact ⟨rest, by simp [takePrimes, hk, htake], hmap⟩

theorem takeSubscript_eq (ts : List Token) :
    ts.map Token.piece = ((takeSubscript ts).1.map fun content => (.subscript, content)).toList ++
      (takeSubscript ts).2.map Token.piece := by
  cases ts with
  | nil => rfl
  | cons t ts =>
    by_cases hk : t.kind = .subscript
    · simp [takeSubscript, hk, Token.piece]
    · simp [takeSubscript, hk]

theorem takeSubscript_of_map {subscript : Option Text}
    (h : ts.map Token.piece = (subscript.map fun content => (.subscript, content)).toList ++ ps)
    (hps : ∀ p ∈ ps.head?, p.1 ≠ .subscript) :
    ∃ rest, takeSubscript ts = (subscript, rest) ∧ rest.map Token.piece = ps := by
  cases subscript with
  | none =>
    obtain rfl : ts.map Token.piece = ps := h
    refine ⟨ts, ?_, rfl⟩
    cases ts with
    | nil => rfl
    | cons t ts => exact if_neg (hps t.piece rfl)
  | some content =>
    obtain ⟨t, ts, rfl, ht, hrest⟩ := List.map_eq_cons_iff.mp h
    obtain ⟨hk, rfl⟩ := Prod.mk.inj ht
    exact ⟨ts, by simp [takeSubscript, hk], hrest⟩

theorem expect_eq_ok {kind : TokenKind} {what : String} {t : Token}
    (h : expect source kind what ts = .ok (t, rest)) : ts = t :: rest ∧ t.kind = kind := by
  unfold expect at h
  split at h
  · simp at h
  · split at h
    case isTrue hk =>
      obtain ⟨rfl, rfl⟩ := Prod.mk.inj (Except.ok.inj h)
      exact ⟨rfl, hk⟩
    case isFalse => simp at h

theorem expect_cons {kind : TokenKind} {what : String} {t : Token} (h : t.kind = kind) :
    expect source kind what (t :: ts) = .ok (t, ts) := if_pos h

theorem letterRun_eq_nil {first : Token} (h : ∀ p ∈ (ts.map Token.piece).head?, p.1 ≠ .letter) :
    letterRun first ts = [] := by
  cases ts with
  | nil => rfl
  | cons t ts =>
    have hk : t.kind ≠ .letter := h t.piece rfl
    simp [letterRun, hk]

theorem gluedDigits?_eq_none {first : Token}
    (h : ∀ p ∈ (ts.map Token.piece).head?, p.1 ≠ .other) :
    gluedDigits? source first ts = none := by
  cases ts with
  | nil => rfl
  | cons t ts =>
    have hk : t.kind ≠ .other := h t.piece rfl
    simp [gluedDigits?, hk]

/-- A name that is read is spelled by the tokens it took. -/
theorem pieces_of_parseName (hts : ∀ p ∈ ts.map Token.piece, IsPiece p)
    (h : parseName lex source role ts = .ok (s, rest)) :
    ts.map Token.piece = piecesOf s ++ rest.map Token.piece ∧ s.Proper := by
  obtain ⟨⟨first, after⟩, hfirst, hname⟩ := ok_of_bind h
  obtain ⟨rfl, hkind⟩ := expect_eq_ok hfirst
  obtain ⟨hpiece, hafter⟩ := List.forall_mem_cons.mp hts
  dsimp only at hname
  split at hname
  case isTrue => simp at hname
  case isFalse =>
    split at hname
    case h_2 => simp at hname
    case h_3 => simp at hname
    case h_1 letter _ htext _ =>
      obtain ⟨rfl, rfl⟩ := Prod.mk.inj (Except.ok.inj hname)
      obtain ⟨c, hc, hletter⟩ := hpiece.exists_letter hkind
      obtain ⟨rfl, -⟩ : letter = c ∧ _ = [] := by
        simpa using htext.symm.trans (congrArg Prod.snd hc)
      have hsubscript := takeSubscript_eq after
      have hmarks : ∀ p ∈ (takeSubscript after).2.map Token.piece, IsPiece p := fun p hp =>
        hafter p (by rw [hsubscript]; exact List.mem_append_right _ hp)
      have hprimes := takePrimes_eq hmarks
      refine ⟨?_, hletter, fun content hcontent => ?_⟩
      · rw [List.map_cons, hc, hsubscript, hprimes]
        simp [piecesOf]
      · refine (hafter (.subscript, content) ?_).of_subscript
        rw [hsubscript, show (takeSubscript after).1 = some content from hcontent]
        simp

/-- A name is read where its pieces stand and something else follows. -/
theorem parseName_of_map (lex : Lexicon) (source : Text) (role : NameRole)
    (h : ts.map Token.piece = piecesOf s ++ ps) (hps : Delimits ps) :
    ∃ rest, parseName lex source role ts = .ok (s, rest) ∧ rest.map Token.piece = ps := by
  rw [piecesOf, List.cons_append, List.append_assoc, List.map_eq_cons_iff] at h
  obtain ⟨first, after, rfl, hfirst, hafter⟩ := h
  obtain ⟨hkind, htext⟩ := Prod.mk.inj hfirst
  have hnext := hps.after_letter s.subscript (n := s.primes)
  rw [← hafter] at hnext
  obtain ⟨more, hsubscript, hmore⟩ := takeSubscript_of_map hafter hps.after_subscript
  obtain ⟨rest, hprimes, hrest⟩ := takePrimes_of_map hmore (hps.ne (by decide))
  refine ⟨rest, ?_, hrest⟩
  unfold parseName
  rw [expect_cons hkind]
  change (if _ then _ else _) = _
  rw [letterRun_eq_nil fun p hp => (hnext p hp).1]
  simp only [htext, gluedDigits?_eq_none fun p hp => (hnext p hp).2, hsubscript, hprimes]
  rfl

end Head

end Formulary
