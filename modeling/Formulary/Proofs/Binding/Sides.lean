import Formulary.Proofs.Binding.Planned
import Formulary.Proofs.Formula.Enclosed
import Formulary.Proofs.Formula.Sign
import Formulary.Proofs.Formula.Words
import Formulary.Proofs.Lexicon.Idempotence

/-! # Right-hand sides

The right-hand side of a definition, once it has been read, has nothing left in it to
replace or to cut off, and no sign of its own. Writing products out keeps it so.
-/

namespace Formulary

open Assignment (Passes)
open Text (Trim Stops Spaced)
open Lexicon (plainOperator depthAfter)

variable {r : Reading} {live : LiveNames} {arities : Formula.Arities} {lex : Lexicon}
  {functions : List Name} {raw left right t : Text} {written : Head} {p : Plan}

/-! ### A normalized text -/

namespace Lexicon

theorem plainOperator_eq_backslash {c : Char} (h : plainOperator c = '\\') : c = '\\' := by
  unfold plainOperator at h
  split at h
  · simp at h
  · split at h
    · simp at h
    · exact h

/-- A text without backslashes has only operators and words replaced. -/
theorem Regular.normalize_of_not_mem (h : lex.Regular) (hraw : '\\' ∉ raw) :
    let t := raw.map plainOperator
    '\\' ∉ t ∧ lex.normalize raw = lex.replaceWords (Assignment.nameSpan? t) t := by
  have hslash : '\\' ∉ raw.map plainOperator := by
    intro hin
    obtain ⟨c, hc, he⟩ := List.mem_map.mp hin
    exact hraw (plainOperator_eq_backslash he ▸ hc)
  refine ⟨hslash, ?_⟩
  rw [normalize, replaceBackslash_eq, h.replacedFrom_of_keyFree (h.keyFree_of_not_mem hslash)]

theorem Regular.copied_normalize (h : lex.Regular) (hraw : '\\' ∉ raw) :
    ∀ c ∈ lex.normalize raw, c ≠ '\\' ∧ plainOperator c = c := by
  obtain ⟨hslash, hnormal⟩ := h.normalize_of_not_mem hraw
  have hnone : ∀ c ∈ lex.normalize raw, c ≠ '\\' := by
    rw [hnormal, replaceWords_eq]
    refine h.forall_mem_renamedFrom (fun c hc => ne_of_isGreek hc (by decide)) ?_
    rintro c hc rfl
    exact hslash hc
  exact fun c hc => ⟨hnone c hc, h.plain_normalize raw c hc⟩

end Lexicon

/-! ### Two sides -/

namespace Assignment

theorem split_append {l r : Text} (h : find? (l ++ '=' :: r) = some l.length) :
    split (l ++ '=' :: r) =
      if (Text.strip l).isEmpty then .error (.missingName l.length)
      else if (find? (Text.strip r)).isSome then .error .multipleEquals
      else .ok (Text.strip l, Text.strip r) := by
  have hdrop : (l ++ '=' :: r).drop (l.length + 1) = r := by simp [List.drop_append]
  rw [split, h]
  dsimp only
  rw [List.take_left, hdrop]

theorem of_split (h : split t = .ok (left, right)) : ∃ l r, t = l ++ '=' :: r ∧
    left = Text.strip l ∧ right = Text.strip r ∧ left ≠ [] ∧ find? right = none := by
  cases hfind : find? t with
  | none => simp [split, hfind] at h
  | some i =>
    obtain ⟨l, r, rfl, rfl⟩ := exists_of_findFrom hfind
    rw [Nat.zero_add] at hfind
    rw [split_append hfind] at h
    split at h
    · simp at h
    · split at h
      · simp at h
      · obtain ⟨rfl, rfl⟩ := Prod.mk.inj (Except.ok.inj h)
        exact ⟨l, r, rfl, rfl, rfl, by simp_all, by simp_all⟩

end Assignment

/-- The two sides stand in the normalized text around the sign, with blanks around each. -/
theorem Plan.exists_of_sides (h : sides r raw = .ok (left, right)) :
    ∃ before before' behind behind', (∀ c ∈ before ++ before', Text.isBlank c = true) ∧
      (∀ c ∈ behind ++ behind', Text.isBlank c = true) ∧ r.lexicon.normalize raw =
        (before ++ (left ++ before')) ++ '=' :: (behind ++ (right ++ behind')) ∧
      Trim right ∧ Assignment.find? right = none := by
  unfold sides at h
  split at h
  case isTrue => simp at h
  case isFalse =>
    dsimp only at h
    split at h
    case isTrue => simp at h
    case isFalse =>
      obtain ⟨l, r', ht, rfl, rfl, -, hunsigned⟩ := Assignment.of_split h
      obtain ⟨a, d, hsplit, ha, hd⟩ := Text.strip_split (r.lexicon.normalize raw)
      obtain ⟨a', b, hl, ha', hb⟩ := Text.strip_split l
      obtain ⟨c, d', hr, hc, hd'⟩ := Text.strip_split r'
      refine ⟨a ++ a', b, c, d' ++ d, ?_, ?_, ?_, Text.trim_strip r', hunsigned⟩
      · simp only [List.forall_mem_append]
        exact ⟨⟨ha, ha'⟩, hb⟩
      · simp only [List.forall_mem_append]
        exact ⟨hc, hd', hd⟩
      · calc r.lexicon.normalize raw = a ++ ((l ++ '=' :: r') ++ d) := by rw [← ht, ← hsplit]
          _ = a ++ (a' ++ (Text.strip l ++ b) ++ '=' :: (c ++ (Text.strip r' ++ d')) ++ d) := by
            rw [← hl, ← hr]
          _ = _ := by simp

/-- The right-hand side that a plan defines is balanced. -/
theorem isBalanced_of_plan (h : plan r live arities raw = .ok p) (hk : p.head.kind ≠ .parameter) :
    Bracket.isBalanced p.rhs = true := by
  obtain ⟨left, right, written, hsteps⟩ := Plan.steps_of_plan h
  obtain ⟨hhead, hrhs⟩ := Plan.of_assemble hsteps.assembled
  rw [hhead] at hk
  rw [hrhs, Plan.finalRhs, if_neg hk, Formula.isBalanced_withProducts]
  exact hsteps.balanced

/-- Nor does it have a sign of its own. -/
theorem unsigned_of_plan (h : plan r live arities raw = .ok p) (hk : p.head.kind ≠ .parameter) :
    Assignment.find? p.rhs = none := by
  obtain ⟨left, right, written, hsteps⟩ := Plan.steps_of_plan h
  obtain ⟨hhead, hrhs⟩ := Plan.of_assemble hsteps.assembled
  obtain ⟨_, _, _, _, -, -, -, -, hunsigned⟩ := Plan.exists_of_sides hsteps.sides
  rw [hhead] at hk
  rw [hrhs, Plan.finalRhs, if_neg hk, Formula.find?_withProducts]
  exact hunsigned

/-- A right-hand side that is read as it stands. -/
structure RightSide (lex : Lexicon) (t : Text) : Prop where
  nonempty : t ≠ []
  trim : Trim t
  balanced : Bracket.isBalanced t = true
  unsigned : Assignment.find? t = none
  wordFree : lex.WordFree 0 false t
  copied : ∀ c ∈ t, c ≠ '\\' ∧ plainOperator c = c

namespace RightSide

/-- What is read as the right-hand side, is read so again. -/
theorem of_steps (hlex : r.lexicon.Regular) (hraw : '\\' ∉ raw)
    (h : Plan.Steps r live arities raw left right written p) : RightSide r.lexicon right := by
  obtain ⟨before, before', behind, behind', hbefore, hbehind, hwhole, htrim, hunsigned⟩ :=
    Plan.exists_of_sides h.sides
  simp only [List.forall_mem_append] at hbefore hbehind
  have hbalanced := (Plan.writtenHead_eq_ok.mp h.head).1
  have hcopied := hlex.copied_normalize hraw
  rw [hwhole] at hcopied
  have hslash : ∀ {u : Text}, (∀ c ∈ u, c ∈ (before ++ (left ++ before')) ++
      '=' :: (behind ++ (right ++ behind'))) → '\\' ∉ u :=
    fun hu hin => (hcopied _ (hu _ hin)).1 rfl
  have hdepth : depthAfter 0 (before ++ (left ++ before')) = 0 := by
    rw [Lexicon.depthAfter_append, Lexicon.depthAfter_of_blank hbefore.1,
      Lexicon.depthAfter_append, Lexicon.depthAfter_of_isBalanced hbalanced,
      Lexicon.depthAfter_of_blank hbefore.2]
  have hfree : r.lexicon.WordFree 0 false (behind ++ (right ++ behind')) := by
    have hnormal := (hlex.normalize_of_not_mem hraw).2
    rw [← hdepth]
    exact hlex.wordFree_behind_sign (hnormal ▸ hwhole)
      (hslash fun c hc => List.mem_append_left _ hc)
  have hlatin : ∀ c ∈ behind, isLatin c = false := fun c hc => isLatin_of_isBlank (hbehind.1 c hc)
  have hstop : Stops isLatin behind' := fun c hc =>
    isLatin_of_isBlank (hbehind.2 c (List.mem_of_mem_head? hc))
  rw [Lexicon.wordFree_append_iff (hslash fun c hc => by simp [hc])
    (Lexicon.severed_of_last hlatin), Lexicon.depthAfter_of_blank hbehind.1,
    Lexicon.wordFree_append_iff (hslash fun c hc => by simp [hc])
    (Lexicon.severed_of_stops hstop)] at hfree
  exact ⟨h.nonempty, htrim, h.balanced, hunsigned, hfree.2.1, fun c hc => hcopied c (by simp [hc])⟩

/-- Writing products out, nothing comes up to be replaced or cut off. -/
theorem withProducts (hlex : lex.Regular) (h : RightSide lex t) :
    RightSide lex (Formula.withProducts lex functions t) := by
  have hbalanced : Bracket.isBalanced (Formula.withProducts lex functions t) = true :=
    Formula.isBalanced_withProducts.trans h.balanced
  have hunsigned : Assignment.find? (Formula.withProducts lex functions t) = none :=
    Formula.find?_withProducts.mpr h.unsigned
  obtain ⟨ps, hps, hcalled, rfl, htokens⟩ := Formula.called_tokens lex functions t
  have hwritten : Formula.withProducts lex functions (Formula.written ps) =
      Formula.written (Formula.spread none [] ps) := by
    rw [Formula.withProducts, htokens, Formula.writeProducts_lay]
  rw [hwritten] at hbalanced hunsigned ⊢
  have hslash : '\\' ∉ Formula.written ps := fun hin => (h.copied _ hin).1 rfl
  have hframed : Formula.Framed lex 0 ps := hps.framed (u := []) hlex hcalled hslash h.wordFree
  obtain ⟨c, hc⟩ := Option.isSome_iff_exists.mp (List.getLast?_isSome.mpr h.nonempty)
  have hblank : Text.isBlank c = false :=
    h.trim.2 c (by rw [List.head?_reverse]; exact hc)
  have hlast : (Formula.written (Formula.spread none [] ps)).getLast? = some c :=
    hps.getLast?_spread hblank hc
  constructor
  case nonempty =>
    intro hnil
    simp [hnil] at hlast
  case trim =>
    refine ⟨Formula.stops_spread hps (by decide) h.trim.1, fun d hd => ?_⟩
    rw [List.head?_reverse, hlast] at hd
    obtain rfl : c = d := by simpa using hd
    exact hblank
  case balanced => exact hbalanced
  case unsigned => exact hunsigned
  case wordFree => exact hps.wordFree_spread hlex (by simp) hslash hframed
  case copied =>
    intro d hd
    rcases Formula.mem_spread d hd with rfl | hd
    · decide
    · exact h.copied d (by simpa using hd)

end RightSide

/-! ## Left-hand sides

A head in its usual spelling has no sign outside its subscripts and no word to replace,
since its names have one letter. Its brackets are those of the head that was read.
-/

variable {words : List Text} {head : Head} {s : Symbol} {formals : List Symbol} {c : Char}

/-! ### Texts in which nothing is found -/

/-- Whatever is open before the text, it has no sign and no word to replace. -/
structure Clear (lex : Lexicon) (t : Text) : Prop where
  passes : Passes t
  wordFree : ∀ d, lex.WordFree d false t

theorem clear_nil : Clear lex [] := ⟨Assignment.passes_of_quiet (by simp), fun _ => .nil⟩

/-- What stands between the names of a head. -/
theorem Clear.cons (hc : c = '(' ∨ c = ')' ∨ c = ',' ∨ c = ' ') (ht : Clear lex t) :
    Clear lex (c :: t) := by
  have hpasses : Passes [c] := by
    rcases hc with rfl | rfl | rfl | rfl
    · exact Assignment.passes_opening rfl
    · exact Assignment.passes_closing rfl
    all_goals exact Assignment.passes_of_quiet (List.forall_mem_singleton.mpr (by decide))
  refine ⟨hpasses.append ht.passes, fun d => ?_⟩
  have hword := ht.wordFree d
  rcases hc with rfl | rfl | rfl | rfl <;> exact .char (by decide) hword

/-- A name has one letter, and its subscript is passed by. -/
theorem Clear.name_append (hlex : lex.Regular) (hs : s.Proper) (hslash : '\\' ∉ s.name)
    (hstop : Stops isLatin t) (ht : Clear lex t) : Clear lex (s.name ++ t) := by
  have hsubscript : ∀ content ∈ s.subscript, '\x7d' ∉ content := fun content hcontent =>
    (hs.subscript content hcontent).2
  have hletter : Passes [s.letter] := Assignment.passes_of_quiet
    (List.forall_mem_singleton.mpr
      (Assignment.isQuiet_of_class (p := isLetter) (by decide) hs.letter))
  have hmarks : Passes (List.replicate s.primes '\'') := Assignment.passes_of_quiet fun c hc => by
    obtain rfl := List.eq_of_mem_replicate hc
    decide
  have hbraces : Passes ((s.subscript.map Symbol.subscriptText).getD []) := by
    cases hs : s.subscript with
    | none => exact Assignment.passes_of_quiet (by simp)
    | some content => exact Assignment.passes_subscript (hsubscript content hs)
  have hname : Passes s.name := hletter.append (hbraces.append hmarks)
  refine ⟨hname.append ht.passes, fun d => ?_⟩
  rw [Lexicon.wordFree_append_iff hslash (Lexicon.severed_of_stops hstop)]
  exact ⟨Symbol.wordFree hlex hs.letter hsubscript, ht.wordFree _⟩

theorem Clear.join_append (hlex : lex.Regular) (hformals : ∀ f ∈ formals, f.Proper)
    (hslash : '\\' ∉ Text.join (text ", ") (formals.map Symbol.name)) (hstop : Stops isLatin t)
    (ht : Clear lex t) : Clear lex (Text.join (text ", ") (formals.map Symbol.name) ++ t) := by
  have hcomma : text ", " = [',', ' '] := rfl
  rw [hcomma] at hslash ⊢
  induction formals with
  | nil => exact ht
  | cons f formals ih =>
    obtain ⟨hf, hformals⟩ := List.forall_mem_cons.mp hformals
    cases formals with
    | nil => exact .name_append hlex hf hslash hstop ht
    | cons f' formals =>
      simp only [List.map_cons, Text.join, List.mem_append, not_or] at hslash
      have hrest := ih hformals hslash.2
      simp only [List.map_cons, Text.join, List.append_assoc]
      exact .name_append hlex hf hslash.1.1 (by simp [Stops, isLatin])
        (.cons (by simp) (.cons (by simp) hrest))

/-! ### Heads -/

/-- A left-hand side that is read as it stands. -/
structure LeftSide (lex : Lexicon) (t : Text) : Prop where
  nonempty : t ≠ []
  trim : Trim t
  balanced : Bracket.isBalanced t = true
  clear : Clear lex t
  copied : ∀ c ∈ t, c ≠ '\\' ∧ plainOperator c = c

theorem Head.Spells.clear (hlex : lex.Regular) (h : Head.Spells head words)
    (hslash : '\\' ∉ head.spelling) : Clear lex head.spelling := by
  cases h with
  | anonymous =>
    have hy : Symbol.Proper ⟨'y', none, 0⟩ := ⟨by decide, by simp⟩
    exact .name_append hlex hy (by decide) (by simp [Stops]) clear_nil
  | @parameter s hs =>
    have hclear : Clear lex (s.name ++ []) :=
      .name_append hlex hs hslash (by simp [Stops]) clear_nil
    rwa [List.append_nil] at hclear
  | @function s formals hs hformals =>
    rw [spelling, List.mem_append, List.mem_cons, List.mem_append] at hslash
    simp only [not_or] at hslash
    refine .name_append hlex hs hslash.1 (by simp [Stops, isLatin]) (.cons (by simp) ?_)
    exact .join_append hlex hformals hslash.2.2.1 (by simp [Stops, isLatin])
      (.cons (by simp) clear_nil)

/-- A name ends with its letter, a brace or a mark. -/
theorem Symbol.Proper.trim (hs : s.Proper) : Trim s.name := by
  have hletter := isBlank_of_isLetter hs.letter
  have hlast : ∃ front c, s.name = front ++ [c] ∧ Text.isBlank c = false := by
    unfold Symbol.name
    cases s.primes with
    | succ n =>
      exact ⟨s.letter :: ((s.subscript.map subscriptText).getD [] ++ List.replicate n '\''), '\'',
        by simp [List.replicate_succ'], by decide⟩
    | zero =>
      cases s.subscript with
      | none => exact ⟨[], s.letter, rfl, hletter⟩
      | some content =>
        exact ⟨s.letter :: '_' :: '\x7b' :: content, '\x7d', by simp [Symbol.subscriptText],
          by decide⟩
  obtain ⟨front, c, hname, hc⟩ := hlast
  refine ⟨by simpa [Symbol.name, Stops] using hletter, ?_⟩
  simpa [hname, Stops] using hc

theorem Head.Spells.trim (h : Head.Spells head words) :
    head.spelling ≠ [] ∧ Trim head.spelling := by
  cases h with
  | anonymous => exact ⟨by decide, by simp [Trim, Stops, spelling, plotName]; decide⟩
  | @parameter s hs => exact ⟨by simp [spelling, Symbol.name], hs.trim⟩
  | @function s formals hs =>
    refine ⟨by simp [spelling], ?_, ?_⟩
    · simpa [spelling, Stops, Symbol.name] using isBlank_of_isLetter hs.letter
    · simp [spelling, Stops]
      decide

/-- Blanks between words are no brackets. -/
theorem Bracket.openAfter?_spaced {stack : List Char} (h : Spaced words t) :
    openAfter? stack t = openAfter? stack words.flatten := by
  induction h generalizing stack with
  | nil h => exact openAfter?_of_plain fun c hc => Formula.not_bracket_of_isBlank (h c hc)
  | cons h _ ih =>
    rw [openAfter?_append, openAfter?_of_plain fun c hc => Formula.not_bracket_of_isBlank (h c hc),
      Option.bind_some, List.flatten_cons, openAfter?_append, openAfter?_append]
    exact congrArg _ (funext fun stack => ih)

/-- A bare name that is not bound to a number gets brackets. -/
theorem Head.Spells.settle (h : Head.Spells head words) (rhs : Text) :
    ∃ words', Head.Spells (Plan.settle head rhs) words' ∧
      (words' = words ∨ words' = words ++ [['('], [')']]) := by
  cases h with
  | anonymous => exact ⟨_, .anonymous, Or.inl rfl⟩
  | @parameter s hs hname =>
    by_cases hn : Numeral.isNumeral rhs = true
    · rw [Plan.settle, if_pos hn]
      exact ⟨_, .parameter hs hname, Or.inl rfl⟩
    · rw [Plan.settle, if_neg hn]
      exact ⟨_, @Head.Spells.function s [] hs (by simp) (by simp) (by simp), Or.inr rfl⟩
  | function hs hformals hdistinct hfresh =>
    exact ⟨_, .function hs hformals hdistinct hfresh, Or.inl rfl⟩

/-- The usual spelling is read as it stands if the words of the head are. -/
theorem LeftSide.of_spells (hlex : lex.Regular) (h : Head.Spells head words)
    (hbalanced : Bracket.isBalanced words.flatten = true)
    (hcopied : ∀ c ∈ words.flatten, c ≠ '\\' ∧ plainOperator c = c) :
    LeftSide lex head.spelling := by
  have hspaced := Head.spaced_spelling h
  have hcopied' : ∀ c ∈ head.spelling, c ≠ '\\' ∧ plainOperator c = c := by
    intro c hc
    rcases hspaced.mem hc with hblank | hword
    · refine ⟨?_, Lexicon.plainOperator_of_class (by decide) hblank⟩
      rintro rfl
      exact absurd hblank (by decide)
    · exact hcopied c hword
  have hslash : '\\' ∉ head.spelling := fun hin => (hcopied' _ hin).1 rfl
  refine ⟨h.trim.1, h.trim.2, ?_, h.clear hlex hslash, hcopied'⟩
  rw [Bracket.isBalanced_iff] at hbalanced ⊢
  rw [Bracket.openAfter?_spaced hspaced, hbalanced]

/-- The head of a plan is spelled by words that are those read, or with brackets behind them. -/
theorem LeftSide.of_steps (hlex : r.lexicon.Regular) (hraw : '\\' ∉ raw)
    (h : Plan.Steps r live arities raw left right written p) :
    (∃ words, Head.Spells p.head words) ∧ LeftSide r.lexicon p.head.spelling := by
  obtain ⟨before, before', behind, behind', -, -, hwhole, -⟩ := Plan.exists_of_sides h.sides
  obtain ⟨hleft, hparse⟩ := Plan.writtenHead_eq_ok.mp h.head
  obtain ⟨words, hwords, hspaced⟩ := Head.spells_of_parse hparse
  obtain ⟨words', hspells, hsame⟩ := hwords.settle right
  rw [← (Plan.of_assemble h.assembled).1] at hspells
  have hbalanced : Bracket.isBalanced words.flatten = true := by
    rwa [Bracket.isBalanced_iff, ← Bracket.openAfter?_spaced hspaced, ← Bracket.isBalanced_iff]
  have hcopied : ∀ c ∈ words.flatten, c ≠ '\\' ∧ plainOperator c = c := fun c hc => by
    have hc := hspaced.flatten_sublist.mem hc
    exact hlex.copied_normalize hraw c (by rw [hwhole]; simp [hc])
  refine ⟨⟨words', hspells⟩, .of_spells hlex hspells ?_ ?_⟩
  · rcases hsame with rfl | rfl
    · exact hbalanced
    · rw [List.flatten_append]
      exact Bracket.isBalanced_append hbalanced (by decide)
  · rcases hsame with rfl | rfl
    · exact hcopied
    · rw [List.flatten_append, List.forall_mem_append]
      exact ⟨hcopied, by simp [plainOperator]⟩

end Formulary
