import Formulary.Proofs.Head.Name

/-! # The grammar of heads

A head is the plot's name, a name, or a name with formals in round brackets. `Spells`
lists the words of a head in order; reading accepts a text exactly if it consists of
the words of some head, with blanks between them, and gives that head.
-/

namespace Formulary.Head

open Text (Spaced)

/-- The words of names with commas between them. -/
def listed : List Symbol → List Text
  | [] => []
  | [s] => s.words
  | s :: rest => s.words ++ [','] :: listed rest

/-- The words that a head is spelled with. Formals are distinct and none is the function. -/
inductive Spells : Head → List Text → Prop
  | anonymous : Spells .anonymous [plotName]
  | parameter {s : Symbol} (hs : s.Proper) (hname : s.name ≠ plotName) :
      Spells (.parameter s) s.words
  | function {s : Symbol} {formals : List Symbol} (hs : s.Proper)
      (hformals : ∀ f ∈ formals, f.Proper) (hdistinct : (formals.map Symbol.name).Nodup)
      (hfresh : s.name ∉ formals.map Symbol.name) :
      Spells (.function s (formals.map Symbol.name))
        (s.words ++ ['('] :: (listed formals ++ [[')']]))

/-- The usual spelling: nothing stands between the words but a blank after each comma. -/
def spelling : Head → Text
  | .anonymous => plotName
  | .parameter s => s.name
  | .function s formals => s.name ++ '(' :: (Text.join (text ", ") formals ++ [')'])

variable {lex : Lexicon} {source : Text} {ts rest : List Token} {ps : List Piece} {s : Symbol}

/-! ### Formals -/

def listedPieces : List Symbol → List Piece
  | [] => []
  | [s] => piecesOf s
  | s :: rest => piecesOf s ++ (.comma, [',']) :: listedPieces rest

theorem listedPieces_cons_cons (s s' : Symbol) (ss : List Symbol) :
    listedPieces (s :: s' :: ss) = piecesOf s ++ (.comma, [',']) :: listedPieces (s' :: ss) := rfl

theorem listedPieces_cons (s : Symbol) (ss : List Symbol) :
    listedPieces (s :: ss) = (.letter, [s.letter]) :: (listedPieces (s :: ss)).tail := by
  cases ss <;> rfl

@[simp] theorem map_written_listedPieces (ss : List Symbol) :
    (listedPieces ss).map written = listed ss := by
  fun_induction listedPieces ss <;> simp_all [listed, written]

/-- The names after the first one, if a comma follows it. -/
def moreNames (lex : Lexicon) (source : Text) (fuel : Nat) (s : Symbol) :
    List Token → Except BindError (List Symbol × List Token)
  | [] => .ok ([s], [])
  | t :: rest =>
    if t.kind = .comma then
      (parseNames lex source fuel rest).map fun p => (s :: p.1, p.2)
    else .ok ([s], t :: rest)

theorem bind_moreNames {fuel : Nat} (p : Symbol × List Token) :
    (match p.2 with
      | t :: rest =>
        if t.kind = .comma then do
          let q ← parseNames lex source fuel rest
          return (p.1 :: q.1, q.2)
        else return ([p.1], p.2)
      | [] => return ([p.1], p.2)) = moreNames lex source fuel p.1 p.2 := by
  obtain ⟨s, _ | ⟨t, rest⟩⟩ := p
  · rfl
  · change (if _ then _ else _) = (if _ then _ else _)
    split
    · cases parseNames lex source fuel rest <;> rfl
    · rfl

/-- A list of names starts with neither a comma nor the closing bracket. -/
theorem parseNames_succ {fuel : Nat} :
    parseNames lex source (fuel + 1) ts =
      (match ts with
        | t :: _ =>
          if t.kind = .comma ∨ t.kind = .rparen then .error (.emptyArgument source t.position)
          else .ok ()
        | [] => .ok ()) >>= fun _ =>
      parseName lex source .formal ts >>= fun p => moreNames lex source fuel p.1 p.2 := by
  unfold parseNames
  simp only [← bind_moreNames]
  cases ts with
  | nil => rfl
  | cons t ts =>
    by_cases hk : t.kind = .comma ∨ t.kind = .rparen <;>
      simp only [hk, Bool.or_eq_true, decide_eq_true_eq, if_true, if_false]
    all_goals rfl

theorem parseNames_eq_ok {fuel : Nat} {p : List Symbol × List Token}
    (h : parseNames lex source (fuel + 1) ts = .ok p) :
    ∃ s after, parseName lex source .formal ts = .ok (s, after) ∧
      moreNames lex source fuel s after = .ok p := by
  rw [parseNames_succ] at h
  obtain ⟨_, -, h⟩ := ok_of_bind h
  obtain ⟨⟨s, after⟩, hname, h⟩ := ok_of_bind h
  exact ⟨s, after, hname, h⟩

theorem parseNames_of_parseName {fuel : Nat} {after : List Token}
    (h : parseName lex source .formal ts = .ok (s, after)) :
    parseNames lex source (fuel + 1) ts = moreNames lex source fuel s after := by
  obtain ⟨⟨first, more⟩, hfirst, -⟩ := ok_of_bind h
  obtain ⟨rfl, hkind⟩ := expect_eq_ok hfirst
  rw [parseNames_succ, h]
  simp only [hkind]
  rfl

/-- Names that are read are spelled by the tokens they took. -/
theorem pieces_of_parseNames {fuel : Nat} {ss : List Symbol}
    (hts : ∀ p ∈ ts.map Token.piece, IsPiece p) (hfuel : ts.length < fuel)
    (h : parseNames lex source fuel ts = .ok (ss, rest)) :
    ts.map Token.piece = listedPieces ss ++ rest.map Token.piece ∧ ss ≠ [] ∧
      ∀ s ∈ ss, s.Proper := by
  induction fuel generalizing ts ss with
  | zero => omega
  | succ fuel ih =>
    obtain ⟨s, after, hname, h⟩ := parseNames_eq_ok h
    obtain ⟨hpieces, hs⟩ := pieces_of_parseName hts hname
    unfold moreNames at h
    split at h
    case h_1 =>
      obtain ⟨rfl, rfl⟩ := Prod.mk.inj (Except.ok.inj h)
      exact ⟨hpieces, by simp, by simpa using hs⟩
    case h_2 t after =>
      split at h
      case isFalse =>
        obtain ⟨rfl, rfl⟩ := Prod.mk.inj (Except.ok.inj h)
        exact ⟨hpieces, by simp, by simpa using hs⟩
      case isTrue hk =>
        cases hmore : parseNames lex source fuel after with
        | error e => simp [hmore, Except.map] at h
        | ok q =>
          obtain ⟨ss', rest'⟩ := q
          rw [hmore] at h
          obtain ⟨rfl, rfl⟩ := Prod.mk.inj (Except.ok.inj h)
          have htail : ∀ p ∈ (t :: after).map Token.piece, IsPiece p := fun p hp =>
            hts p (by rw [hpieces]; exact List.mem_append_right _ hp)
          obtain ⟨ht, hafter⟩ := List.forall_mem_cons.mp htail
          have hlength : after.length < fuel := by
            have := congrArg List.length hpieces
            simp [piecesOf] at this
            omega
          obtain ⟨hrest, hne, hss⟩ := ih hafter hlength hmore
          refine ⟨?_, by simp, List.forall_mem_cons.mpr ⟨hs, hss⟩⟩
          obtain ⟨s', ss, rfl⟩ := List.exists_cons_of_ne_nil hne
          rw [hpieces, List.map_cons, ht.eq_comma hk, hrest, listedPieces_cons_cons]
          simp

/-- Names are read where they stand with commas between them and no comma follows. -/
theorem parseNames_of_map (lex : Lexicon) (source : Text) {fuel : Nat} {ss : List Symbol}
    (hss : ss ≠ []) (hfuel : ss.length ≤ fuel) (h : ts.map Token.piece = listedPieces ss ++ ps)
    (hps : ∀ p ∈ ps.head?, p.1 = .rparen) :
    ∃ rest, parseNames lex source fuel ts = .ok (ss, rest) ∧ rest.map Token.piece = ps := by
  induction ss generalizing ts fuel with
  | nil => contradiction
  | cons s ss ih =>
    obtain ⟨fuel, rfl⟩ := Nat.exists_eq_succ_of_ne_zero (n := fuel) (by rintro rfl; simp at hfuel)
    cases ss with
    | nil =>
      have hdelimits : Delimits ps := fun p hp => by simp [hps p hp]
      obtain ⟨rest, hname, rfl⟩ := parseName_of_map lex source .formal h hdelimits
      refine ⟨rest, ?_, rfl⟩
      rw [Nat.succ_eq_add_one, parseNames_of_parseName hname]
      cases rest with
      | nil => rfl
      | cons t rest =>
        have hk : t.kind = .rparen := hps t.piece rfl
        simp [moreNames, hk]
    | cons s' ss =>
      rw [listedPieces_cons_cons, List.append_assoc, List.cons_append] at h
      obtain ⟨after, hname, hafter⟩ := parseName_of_map lex source .formal h (by simp [Delimits])
      obtain ⟨t, after, rfl, ht, hrest⟩ := List.map_eq_cons_iff.mp hafter
      obtain ⟨rest, hmore, rfl⟩ := ih (by simp) (Nat.le_of_succ_le_succ hfuel) hrest
      refine ⟨rest, ?_, rfl⟩
      have hk : t.kind = .comma := congrArg Prod.fst ht
      rw [Nat.succ_eq_add_one, parseNames_of_parseName hname]
      simp [moreNames, hk, hmore, Except.map]

theorem checkFormals_eq_ok {function : Name} {seen formals : List Name} :
    checkFormals function seen formals = .ok () ↔
      formals.Nodup ∧ (∀ f ∈ formals, f ∉ seen) ∧ function ∉ formals := by
  induction formals generalizing seen with
  | nil => simp [checkFormals]
  | cons f formals ih =>
    unfold checkFormals
    by_cases hseen : f ∈ seen
    · simp [hseen]
    · by_cases hf : f = function
      · rw [if_neg (by simpa using hseen), if_pos hf]
        simp [hf]
      · rw [if_neg (by simpa using hseen), if_neg hf, ih]
        rw [List.nodup_cons, List.forall_mem_cons, List.mem_cons, not_or]
        simp only [List.mem_cons, not_or]
        constructor
        · rintro ⟨hnodup, hrest, hfunction⟩
          exact ⟨⟨fun hin => (hrest f hin).1 rfl, hnodup⟩, ⟨hseen, fun g hg => (hrest g hg).2⟩,
            Ne.symm hf, hfunction⟩
        · rintro ⟨⟨hin, hnodup⟩, ⟨-, hrest⟩, -, hfunction⟩
          exact ⟨hnodup, fun g hg => ⟨fun he => hin (he ▸ hg), hrest g hg⟩, hfunction⟩

/-! ### Reading a head -/

/-- The pieces of a head that is not the plot's name. -/
inductive SpellsPieces : Head → List Piece → Prop
  | parameter {s : Symbol} (hs : s.Proper) : SpellsPieces (.parameter s) (piecesOf s)
  | function {s : Symbol} {formals : List Symbol} (hs : s.Proper)
      (hformals : ∀ f ∈ formals, f.Proper) (hdistinct : (formals.map Symbol.name).Nodup)
      (hfresh : s.name ∉ formals.map Symbol.name) :
      SpellsPieces (.function s (formals.map Symbol.name))
        (piecesOf s ++ (.lparen, ['(']) :: (listedPieces formals ++ [(.rparen, [')'])]))

theorem expectEnd_eq_ok (h : expectEnd source ts = .ok ()) : ts = [] := by
  cases ts with
  | nil => rfl
  | cons t ts => simp [expectEnd] at h

theorem pieces_of_parseFormals {ss : List Symbol} (hts : ∀ p ∈ ts.map Token.piece, IsPiece p)
    (h : parseFormals lex source ts = .ok (ss, rest)) :
    ts.map Token.piece = listedPieces ss ++ rest.map Token.piece ∧ ∀ s ∈ ss, s.Proper := by
  unfold parseFormals at h
  split at h
  case h_1 t ts =>
    split at h
    case isTrue =>
      obtain ⟨rfl, rfl⟩ := Prod.mk.inj (Except.ok.inj h)
      exact ⟨rfl, by simp⟩
    case isFalse =>
      obtain ⟨hpieces, -, hss⟩ := pieces_of_parseNames hts (Nat.lt_succ_self _) h
      exact ⟨hpieces, hss⟩
  case h_2 =>
    obtain ⟨hpieces, -, hss⟩ := pieces_of_parseNames hts (by simp) h
    exact ⟨hpieces, hss⟩

theorem length_le_listedPieces (ss : List Symbol) : ss.length ≤ (listedPieces ss).length := by
  fun_induction listedPieces ss with
  | case1 => simp
  | case2 s => simp [piecesOf]
  | case3 s rest _ ih =>
    simp [piecesOf] at ih ⊢
    omega

theorem parseFormals_of_map (lex : Lexicon) (source : Text) {ss : List Symbol}
    (h : ts.map Token.piece = listedPieces ss ++ (.rparen, [')']) :: ps) :
    ∃ rest, parseFormals lex source ts = .ok (ss, rest) ∧
      rest.map Token.piece = (.rparen, [')']) :: ps := by
  cases ss with
  | nil =>
    obtain ⟨t, after, rfl, ht, hafter⟩ := List.map_eq_cons_iff.mp h
    have hk : t.kind = .rparen := congrArg Prod.fst ht
    exact ⟨t :: after, if_pos hk, h⟩
  | cons s ss =>
    have hfuel : (s :: ss).length ≤ ts.length + 1 := by
      have hle := length_le_listedPieces (s :: ss)
      have := congrArg List.length h
      simp at this hle ⊢
      omega
    obtain ⟨rest, hnames, hrest⟩ := parseNames_of_map lex source (by simp) hfuel h (by simp)
    refine ⟨rest, ?_, hrest⟩
    rw [listedPieces_cons, List.cons_append] at h
    obtain ⟨t, after, rfl, ht, -⟩ := List.map_eq_cons_iff.mp h
    have hk : t.kind ≠ .rparen := by simp [show t.kind = .letter from congrArg Prod.fst ht]
    exact (if_neg hk).trans hnames

theorem spellsPieces_of_parseTokens {head : Head} (hts : ∀ p ∈ ts.map Token.piece, IsPiece p)
    (h : parseTokens lex source ts = .ok head) : SpellsPieces head (ts.map Token.piece) := by
  obtain ⟨⟨s, rest⟩, hname, h⟩ := ok_of_bind h
  obtain ⟨hpieces, hs⟩ := pieces_of_parseName hts hname
  have hrest : ∀ p ∈ rest.map Token.piece, IsPiece p := fun p hp =>
    hts p (by rw [hpieces]; exact List.mem_append_right _ hp)
  rw [hpieces]
  dsimp only at h
  split at h
  case h_1 =>
    obtain rfl := Except.ok.inj h
    simpa using .parameter hs
  case h_2 t rest =>
    split at h
    case isFalse =>
      obtain ⟨_, hend, -⟩ := ok_of_bind h
      simp [expectEnd] at hend
    case isTrue hk =>
      obtain ⟨⟨formals, more⟩, hformals, h⟩ := ok_of_bind h
      obtain ⟨⟨t', last⟩, hclose, h⟩ := ok_of_bind h
      obtain ⟨_, hend, h⟩ := ok_of_bind h
      obtain ⟨_, hcheck, h⟩ := ok_of_bind h
      obtain rfl := Except.ok.inj h
      obtain ⟨ht, hrest⟩ := List.forall_mem_cons.mp hrest
      obtain ⟨hlist, hproper⟩ := pieces_of_parseFormals hrest hformals
      obtain ⟨rfl, hk'⟩ := expect_eq_ok hclose
      obtain rfl := expectEnd_eq_ok hend
      obtain ⟨hdistinct, -, hfresh⟩ := checkFormals_eq_ok.mp hcheck
      have ht' : IsPiece t'.piece := hrest _ (by rw [hlist]; simp)
      rw [List.map_cons, ht.eq_lparen hk, hlist, List.map_singleton, ht'.eq_rparen hk']
      exact .function hs hproper hdistinct hfresh

theorem parseTokens_of_spellsPieces (lex : Lexicon) (source : Text) {head : Head}
    (h : SpellsPieces head (ts.map Token.piece)) : parseTokens lex source ts = .ok head := by
  generalize hp : ts.map Token.piece = ps at h
  cases h with
  | @parameter s hs =>
    rw [← List.append_nil (piecesOf s)] at hp
    obtain ⟨rest, hname, hrest⟩ := parseName_of_map lex source .defined hp (by simp [Delimits])
    obtain rfl := List.map_eq_nil_iff.mp hrest
    unfold parseTokens
    rw [hname]
    rfl
  | @function s formals hs hformals hdistinct hfresh =>
    obtain ⟨rest, hname, hrest⟩ := parseName_of_map lex source .defined hp (by simp [Delimits])
    obtain ⟨t, rest, rfl, ht, hrest⟩ := List.map_eq_cons_iff.mp hrest
    obtain ⟨last, hlist, hlast⟩ := parseFormals_of_map lex source hrest
    obtain ⟨t', last, rfl, ht', hlast⟩ := List.map_eq_cons_iff.mp hlast
    obtain rfl := List.map_eq_nil_iff.mp hlast
    have hk : t.kind = .lparen := congrArg Prod.fst ht
    have hk' : t'.kind = .rparen := congrArg Prod.fst ht'
    have hcheck := checkFormals_eq_ok.mpr ⟨hdistinct, fun f _ => List.not_mem_nil, hfresh⟩
    unfold parseTokens
    rw [hname]
    change (if _ then _ else _) = _
    rw [if_pos hk, hlist]
    change expect _ _ _ _ >>= _ = _
    rw [expect_cons hk']
    change checkFormals _ _ _ >>= _ = _
    rw [hcheck]
    rfl

/-! ### The grammar -/

theorem isPiece_listedPieces {ss : List Symbol} (h : ∀ s ∈ ss, s.Proper) :
    ∀ p ∈ listedPieces ss, IsPiece p := by
  have hcomma : IsPiece (.comma, [',']) := .char (c := ',') (by decide) (by decide)
  fun_induction listedPieces ss with
  | case1 => simp
  | case2 s => exact isPiece_piecesOf (h s (by simp))
  | case3 s rest _ ih =>
    obtain ⟨hs, hrest⟩ := List.forall_mem_cons.mp h
    rw [List.forall_mem_append, List.forall_mem_cons]
    exact ⟨isPiece_piecesOf hs, hcomma, ih hrest⟩

theorem SpellsPieces.isPiece {head : Head} (h : SpellsPieces head ps) : ∀ p ∈ ps, IsPiece p := by
  have hopen : IsPiece (.lparen, ['(']) := .char (c := '(') (by decide) (by decide)
  have hclose : IsPiece (.rparen, [')']) := .char (c := ')') (by decide) (by decide)
  cases h with
  | parameter hs => exact isPiece_piecesOf hs
  | function hs hformals =>
    rw [List.forall_mem_append, List.forall_mem_cons, List.forall_mem_append,
      List.forall_mem_singleton]
    exact ⟨isPiece_piecesOf hs, hopen, isPiece_listedPieces hformals, hclose⟩

/-- The one piece of the plot's name. -/
def plotPiece : Piece := (.letter, plotName)

/-- Words of a head are its pieces as they are written. -/
theorem spells_iff {head : Head} {words : List Text} : Spells head words ↔
    (head = .anonymous ∧ words = [plotName]) ∨
      ∃ ps, SpellsPieces head ps ∧ ps ≠ [plotPiece] ∧ ps.map written = words := by
  constructor
  · intro h
    cases h with
    | anonymous => exact Or.inl ⟨rfl, rfl⟩
    | @parameter s hs hname =>
      refine Or.inr ⟨piecesOf s, .parameter hs, fun he => hname ?_, map_written_piecesOf s⟩
      rw [← s.flatten_words, ← map_written_piecesOf, he]
      rfl
    | @function s formals hs hformals hdistinct hfresh =>
      refine Or.inr ⟨_, .function hs hformals hdistinct hfresh, ?_, by simp [written]⟩
      simp [piecesOf]
  · rintro (⟨rfl, rfl⟩ | ⟨ps, h, hne, rfl⟩)
    · exact .anonymous
    · cases h with
      | @parameter s hs =>
        rw [map_written_piecesOf]
        refine .parameter hs fun hname => hne ?_
        rw [Symbol.eq_of_name hname]
        rfl
      | @function s formals hs hformals hdistinct hfresh =>
        simpa [written] using Spells.function hs hformals hdistinct hfresh

/-- What is read is spelled by the text, blanks left out. -/
theorem spells_of_parse {t : Text} {head : Head} (h : parse lex t = .ok head) :
    ∃ words, Spells head words ∧ Spaced words t := by
  have hy : Text.isBlank 'y' = false := by decide
  obtain ⟨ts, hts, h⟩ := ok_of_bind h
  obtain ⟨hpieces, hspaced⟩ := spaced_of_tokensFrom hts
  split at h
  case isTrue hstrip =>
    obtain rfl := Except.ok.inj h
    exact ⟨_, .anonymous, (Text.strip_eq_singleton hy).mp hstrip⟩
  case isFalse hstrip =>
    have hspells := spellsPieces_of_parseTokens hpieces h
    refine ⟨_, spells_iff.mpr (Or.inr ⟨_, hspells, fun he => hstrip ?_, rfl⟩), hspaced⟩
    rw [he] at hspaced
    exact (Text.strip_eq_singleton hy).mpr hspaced

/-- What the grammar spells is read. -/
theorem parse_of_spells (lex : Lexicon) {t : Text} {head : Head} {words : List Text}
    (h : Spells head words) (ht : Spaced words t) : parse lex t = .ok head := by
  have hy : Text.isBlank 'y' = false := by decide
  have hplot : ∀ p ∈ [plotPiece], IsPiece p := by
    exact List.forall_mem_singleton.mpr (.char (c := 'y') hy (by decide))
  rcases spells_iff.mp h with ⟨rfl, rfl⟩ | ⟨ps, hps, hne, rfl⟩
  · obtain ⟨ts, hts, -⟩ := exists_tokensFrom hplot ht 0
    unfold parse tokens
    rw [hts]
    exact if_pos ((Text.strip_eq_singleton hy).mpr ht)
  · obtain ⟨ts, hts, rfl⟩ := exists_tokensFrom hps.isPiece ht 0
    have hstrip : Text.strip t ≠ plotName := by
      intro hstrip
      obtain ⟨ts', hts', hone⟩ :=
        exists_tokensFrom hplot ((Text.strip_eq_singleton hy).mp hstrip) 0
      obtain rfl := Except.ok.inj (hts.symm.trans hts')
      exact hne hone
    unfold parse tokens
    rw [hts]
    exact (if_neg hstrip).trans (parseTokens_of_spellsPieces lex t hps)

theorem spaced_listed (ss : List Symbol) :
    Spaced (listed ss) (Text.join (text ", ") (ss.map Symbol.name)) := by
  fun_induction listed ss with
  | case1 => exact .nil (by simp [Text.join])
  | case2 s =>
    rw [List.map_singleton, Text.join, ← s.flatten_words]
    exact .flatten _
  | case3 s rest hrest ih =>
    have hjoin : Text.join (text ", ") ((s :: rest).map Symbol.name) =
        s.words.flatten ++ ([','] ++ ' ' :: Text.join (text ", ") (rest.map Symbol.name)) := by
      obtain ⟨s', rest, rfl⟩ := List.exists_cons_of_ne_nil hrest
      rw [s.flatten_words]
      simp [Text.join, text]
    rw [hjoin]
    exact .append (.flatten _) (.front (.blank (by decide) ih))

theorem spaced_spelling {head : Head} {words : List Text} (h : Spells head words) :
    Spaced words head.spelling := by
  cases h with
  | anonymous => exact .flatten [plotName]
  | @parameter s =>
    rw [spelling, ← s.flatten_words]
    exact .flatten _
  | @function s formals =>
    rw [spelling, ← s.flatten_words]
    apply Spaced.append (.flatten _)
    apply Spaced.front (w := ['('])
    exact (spaced_listed formals).append (.flatten [[')']])

/-- The usual spelling is read. -/
theorem parse_spelling (lex : Lexicon) {head : Head} {words : List Text} (h : Spells head words) :
    parse lex head.spelling = .ok head :=
  parse_of_spells lex h (spaced_spelling h)

/-- A name alone is read as a parameter, or as the plot. -/
theorem parse_name (lex : Lexicon) (hs : s.Proper) :
    parse lex s.name = .ok (if s.name = plotName then .anonymous else .parameter s) := by
  by_cases hplot : s.name = plotName
  · rw [if_pos hplot, hplot]
    exact parse_spelling lex .anonymous
  · rw [if_neg hplot]
    exact parse_spelling lex (.parameter hs hplot)

/-- Reading accepts exactly the texts that the grammar spells, and gives the head spelled. -/
theorem parse_iff_spells (lex : Lexicon) :
    (∀ t head, parse lex t = .ok head ↔ ∃ words, Spells head words ∧ Spaced words t) ∧
      ∀ head words, Spells head words → parse lex head.spelling = .ok head := by
  refine ⟨fun t head => ⟨spells_of_parse, ?_⟩, fun head words h => ?_⟩
  · rintro ⟨words, h, ht⟩
    exact parse_of_spells lex h ht
  · exact parse_of_spells lex h (spaced_spelling h)

/-- The head `f(x, k_{1}')` with blanks where they may stand, and as it is usually spelled. -/
theorem parse_iff_spells_for_blanks :
    let head := Head.function ⟨'f', none, 0⟩ [text "x", text "k_{1}'"]
    parse Lexicon.builtin (text " f(x ,k _{1} ')") = .ok head ∧
      head.spelling = text "f(x, k_{1}')" ∧ parse Lexicon.builtin head.spelling = .ok head := by
  intro head
  have hspells : Spells head (['f'] :: ['('] ::
      (listed [⟨'x', none, 0⟩, ⟨'k', some ['1'], 1⟩] ++ [[')']])) := by
    have hf : Symbol.Proper ⟨'f', none, 0⟩ := ⟨by decide, by simp⟩
    have hx : Symbol.Proper ⟨'x', none, 0⟩ := ⟨by decide, by simp⟩
    have hk : Symbol.Proper ⟨'k', some ['1'], 1⟩ :=
      ⟨by decide, by simp [Text.isBlankText]; decide⟩
    have hformals : ∀ f ∈ [Symbol.mk 'x' none 0, ⟨'k', some ['1'], 1⟩], f.Proper := by
      simp [hx, hk]
    exact .function hf hformals (by decide) (by decide)
  have hspaced : Spaced (['f'] :: ['('] ::
      (listed [⟨'x', none, 0⟩, ⟨'k', some ['1'], 1⟩] ++ [[')']])) (text " f(x ,k _{1} ')") := by
    have hb : Text.isBlank ' ' = true := by decide
    have hend : Spaced [[')']] [')'] := .flatten [[')']]
    exact .blank hb (.front (.front (.front (.blank hb (.front (.front (.blank hb (.front
      (.blank hb (.front hend))))))))))
  refine ⟨((parse_iff_spells Lexicon.builtin).1 _ head).mpr ⟨_, hspells, hspaced⟩, by decide,
    (parse_iff_spells Lexicon.builtin).2 head _ hspells⟩

end Formulary.Head
