import Mathlib.Algebra.Order.BigOperators.Group.List
import Mathlib.Algebra.Order.Ring.Nat
import Mathlib.Logic.Relation
import Formulary.Proofs.Binding.Sides
import Formulary.Proofs.Text.Classes
import Formulary.Proofs.Text.Distinct

/-! # Names that are offered

The names close to a symbol's are names of symbols with its letter, all different. With
each first offer the number at the end of the subscript grows, so the first offers of
first offers never come back to a name.
-/

namespace Formulary

open Text (Stops lastNumber)

variable {r : Reading} {live : LiveNames} {arities : Formula.Arities} {p : Plan} {raw : Text}
  {s v : Symbol} {limit : Int}

namespace Symbol

/-! ### Names of symbols -/

theorem primes?_replicate (n : Nat) : primes? (List.replicate n '\'') = some n := by
  simp [primes?]

/-- A symbol is read from its own name. -/
theorem Proper.ofText?_name (hs : s.Proper) : ofText? s.name = some s := by
  obtain ⟨letter, subscript, n⟩ := s
  rw [ofText?, Text.strip_eq_self hs.trim]
  cases subscript with
  | some content =>
    obtain ⟨hfull, hbrace⟩ := hs.subscript content rfl
    have hne : content.isEmpty = false := by
      rw [List.isEmpty_eq_false_iff]
      rintro rfl
      simp [Text.isBlankText] at hfull
    have hbody : name ⟨letter, some content, n⟩ =
        letter :: '_' :: '\x7b' :: (content ++ '\x7d' :: List.replicate n '\'') := by
      simp [name, subscriptText]
    rw [hbody]
    simp only [if_pos hs.letter, Text.cut?_append hbrace, hne, primes?_replicate, Option.map_some]
    rfl
  | none =>
    have hbody : name ⟨letter, none, n⟩ = letter :: List.replicate n '\'' := by simp [name]
    rw [hbody]
    cases n with
    | zero => simp [hs.letter, primes?]
    | succ n =>
      have hmarks : primes? ('\'' :: List.replicate n '\'') = some (n + 1) :=
        primes?_replicate (n + 1)
      simp [hs.letter, List.replicate_succ, hmarks]

theorem Proper.name_inj (hs : s.Proper) (hv : v.Proper) : s.name = v.name ↔ s = v := by
  refine ⟨fun h => ?_, congrArg name⟩
  have hsame := hs.ofText?_name
  rw [h, hv.ofText?_name] at hsame
  exact (Option.some.inj hsame).symm

/-- More than a letter is spelled. -/
def Adorned (s : Symbol) : Prop := s.subscript ≠ none ∨ s.primes ≠ 0

/-- The number at the end of the subscript. -/
def number (s : Symbol) : Nat := (s.subscript.map lastNumber).getD 0

/-- The second character of an adorned name tells it from all words. -/
theorem Adorned.name_eq (h : s.Adorned) :
    ∃ c rest, s.name = s.letter :: c :: rest ∧ (c = '_' ∨ c = '\'') := by
  obtain ⟨letter, subscript, n⟩ := s
  cases subscript with
  | some content => exact ⟨'_', _, rfl, Or.inl rfl⟩
  | none =>
    cases n with
    | zero => simp [Adorned] at h
    | succ n => exact ⟨'\'', _, rfl, Or.inr rfl⟩

/-- No word that is reserved goes on with a subscript or a mark. -/
theorem Adorned.not_isReserved (h : s.Adorned) (complex : Bool) :
    Lexicon.builtin.isReserved complex s.name = false := by
  obtain ⟨c, rest, hname, hc⟩ := h.name_eq
  have hfunctions : ∀ f ∈ Lexicon.builtin.functions, f[1]? ≠ some '_' ∧ f[1]? ≠ some '\'' := by
    decide +kernel
  have hconstants : ∀ k ∈ Lexicon.builtin.constants,
      k.glyph[1]? ≠ some '_' ∧ k.glyph[1]? ≠ some '\'' := by
    decide +kernel
  have hmark : s.name[1]? = some '_' ∨ s.name[1]? = some '\'' := by simpa [hname] using hc
  have hfunction : s.name ∉ Lexicon.builtin.functions := fun hin => by
    have := hfunctions s.name hin
    tauto
  have hconstant : Lexicon.builtin.constant? s.name = none := by
    refine List.find?_eq_none.mpr fun k hk hglyph => ?_
    have := hconstants k hk
    rw [eq_of_beq hglyph] at this
    tauto
  simpa [Lexicon.isReserved, Lexicon.isFunction, Lexicon.isConstant, hconstant] using hfunction

/-- A bare adorned name is read as itself. -/
theorem Adorned.parse (h : s.Adorned) (hs : s.Proper) (lex : Lexicon) :
    Head.parse lex s.name = .ok (.parameter s) := by
  have hname : s.name ≠ plotName := by
    obtain ⟨c, rest, hname, -⟩ := h.name_eq
    simp [hname, plotName]
  rw [Head.parse_name lex hs, if_neg hname]

end Symbol

/-- The name of a planned head is a symbol's. -/
theorem exists_symbol_of_plan (h : plan r live arities raw = .ok p) :
    ∃ s : Symbol, s.Proper ∧ s.name = p.head.name := by
  obtain ⟨left, right, written, hsteps⟩ := Plan.steps_of_plan h
  obtain ⟨words, hwords, -⟩ := Head.spells_of_parse (Plan.writtenHead_eq_ok.mp hsteps.head).2
  obtain ⟨words', hspells, -⟩ := hwords.settle right
  rw [(Plan.of_assemble hsteps.assembled).1]
  generalize Plan.settle written right = head at hspells
  cases hspells with
  | anonymous => exact ⟨⟨'y', none, 0⟩, ⟨by decide, by simp⟩, rfl⟩
  | @parameter s hs => exact ⟨s, hs, rfl⟩
  | @function s _ hs => exact ⟨s, hs, rfl⟩

namespace Naming

/-! ### The next subscripts -/

theorem of_trailingNumber? {t front : Text} {n : Nat} (h : trailingNumber? t = some (front, n)) :
    front ⊆ t ∧ Stops Text.isDecimal front.reverse ∧ lastNumber t ≤ n := by
  unfold trailingNumber? at h
  dsimp only at h
  generalize hcut : (if t.getLast? == some '\n' then t.dropLast else t) = u at h
  have hu : u ⊆ t ∧ lastNumber t ≤ lastNumber u := by
    subst hcut
    split
    case isTrue hlast =>
      have hstops : Stops Text.isDecimal t.reverse := by
        intro c hc
        rw [List.head?_reverse, eq_of_beq hlast] at hc
        obtain rfl := Option.some.inj hc
        decide
      rw [Text.lastNumber_of_stops hstops]
      exact ⟨t.dropLast_subset, Nat.zero_le _⟩
    case isFalse => exact ⟨List.Subset.refl t, Nat.le_refl _⟩
  split at h
  case isTrue => simp at h
  case isFalse =>
    obtain ⟨rfl, rfl⟩ := Prod.mk.inj (Option.some.inj h)
    refine ⟨fun c hc => hu.1 ?_, ?_, hu.2⟩
    · have hc := (List.dropWhile_suffix _).subset (List.mem_reverse.mp hc)
      exact List.mem_reverse.mp hc
    · rw [List.reverse_reverse]
      exact Text.stops_dropWhile _ _

/-- The numbered subscripts go on behind a text without a number, from a number not below the one
at the end, or they go on behind the whole subscript. -/
theorem nextSubscripts_eq (subscript : Option Text) : ∃ front n,
    nextSubscripts subscript = (front ++ Text.ofNat (n + 1), front ++ Text.ofNat (n + 2)) ∧
      front ⊆ subscript.getD [] ∧
      (Stops Text.isDecimal front.reverse ∧ (subscript.map lastNumber).getD 0 ≤ n ∨
        subscript = some front ∧ n = 0) := by
  unfold nextSubscripts
  cases subscript with
  | none => exact ⟨[], 0, rfl, by simp, Or.inl ⟨by simp [Stops], by simp⟩⟩
  | some t =>
    dsimp only
    split
    case h_1 front n h =>
      obtain ⟨hsubset, hstops, hle⟩ := of_trailingNumber? h
      exact ⟨front, n, rfl, hsubset, Or.inl ⟨hstops, hle⟩⟩
    case h_2 => exact ⟨t, 0, rfl, List.Subset.refl t, Or.inr ⟨rfl, rfl⟩⟩

theorem lt_lastNumber_nextSubscripts (subscript : Option Text) :
    (subscript.map lastNumber).getD 0 < lastNumber (nextSubscripts subscript).1 ∧
      lastNumber (nextSubscripts subscript).1 < lastNumber (nextSubscripts subscript).2 := by
  obtain ⟨front, n, hnext, -, ⟨hstops, hle⟩ | ⟨rfl, rfl⟩⟩ := nextSubscripts_eq subscript
  · rw [hnext, Text.lastNumber_append_ofNat hstops, Text.lastNumber_append_ofNat hstops]
    omega
  · have hone := Text.lastNumber_concat front (show Text.isAsciiDigit '1' = true by decide)
    have htwo := Text.lastNumber_concat front (show Text.isAsciiDigit '2' = true by decide)
    rw [hnext]
    change _ < lastNumber (front ++ ['1']) ∧ lastNumber (front ++ ['1']) < lastNumber
      (front ++ ['2'])
    rw [hone, htwo]
    have : '1'.toNat = 49 := rfl
    have : '2'.toNat = 50 := rfl
    simp only [Option.map_some, Option.getD_some]
    omega

/-- A digit in a numbered subscript is not blank, and no brace comes in. -/
theorem nextSubscripts_proper {subscript : Option Text}
    (h : ∀ content ∈ subscript, '\x7d' ∉ content) {content : Text}
    (hcontent : content = (nextSubscripts subscript).1 ∨ content = (nextSubscripts subscript).2) :
    Text.isBlankText content = false ∧ '\x7d' ∉ content := by
  obtain ⟨front, n, hnext, hsubset, -⟩ := nextSubscripts_eq subscript
  have hfront : '\x7d' ∉ front := by
    intro hin
    have hin := hsubset hin
    cases subscript with
    | none => simp at hin
    | some t => exact h t rfl hin
  obtain ⟨m, rfl⟩ : ∃ m, content = front ++ Text.ofNat m := by
    rw [hnext] at hcontent
    exact hcontent.elim (fun h => ⟨_, h⟩) fun h => ⟨_, h⟩
  obtain ⟨d, hd⟩ := List.exists_mem_of_ne_nil _ (Text.ofNat_ne_nil m)
  constructor
  · rw [Text.isBlankText, List.all_eq_false]
    have hblank := Text.isBlank_of_isAsciiDigit (Text.isAsciiDigit_of_mem_ofNat hd)
    exact ⟨d, List.mem_append_right _ hd, by simp [hblank]⟩
  · rw [List.mem_append, not_or]
    refine ⟨hfront, fun hin => ?_⟩
    have := Text.isAsciiDigit_of_mem_ofNat hin
    simp [Text.isAsciiDigit] at this

/-! ### Variants of a symbol -/

theorem tagFor_ne (subscript : Option Text) : subscript ≠ some (tagFor subscript) := by
  unfold tagFor
  split
  case isTrue h =>
    rw [h]
    decide
  case isFalse h => exact h

theorem lastNumber_tagFor (subscript : Option Text) : lastNumber (tagFor subscript) = 0 := by
  unfold tagFor
  split <;> decide

/-- The symbol with the next subscript, the first of its variants. -/
def successor (s : Symbol) : Symbol := ⟨s.letter, some (nextSubscripts s.subscript).1, s.primes⟩

theorem variants_eq (s : Symbol) : variants s =
    [successor s, ⟨s.letter, some (nextSubscripts s.subscript).2, s.primes⟩,
      ⟨s.letter, some (tagFor s.subscript), s.primes⟩] ++
    if s.primes < primeLimit then [⟨s.letter, s.subscript, s.primes + 1⟩] else [] := rfl

/-- A symbol and its variants are all different: the numbers at the end of their subscripts grow,
a word has none, and the last variant has a mark more. -/
theorem nodup_variants (s : Symbol) : (s :: variants s).Nodup := by
  obtain ⟨letter, subscript, n⟩ := s
  rw [variants_eq, successor]
  dsimp only
  obtain ⟨hfirst, hsecond⟩ := lt_lastNumber_nextSubscripts subscript
  generalize nextSubscripts subscript = next at hfirst hsecond ⊢
  obtain ⟨first, second⟩ := next
  dsimp only at hfirst hsecond ⊢
  have htag := lastNumber_tagFor subscript
  have htagged := tagFor_ne subscript
  have hone : subscript ≠ some first := by
    rintro rfl
    simp at hfirst
  have htwo : subscript ≠ some second := by
    rintro rfl
    simp only [Option.map_some, Option.getD_some] at hfirst
    omega
  have hnumbers : first ≠ second := by
    rintro rfl
    omega
  have hword : first ≠ tagFor subscript ∧ second ≠ tagFor subscript := by
    constructor
    · rintro rfl
      omega
    · rintro rfl
      omega
  split <;> simp [hone, htwo, htagged, hnumbers, hword]

theorem of_mem_variants (hs : s.Proper) (hv : v ∈ variants s) :
    v.Proper ∧ v.Adorned ∧ v.letter = s.letter := by
  have hbrace : ∀ content ∈ s.subscript, '\x7d' ∉ content := fun content hcontent =>
    (hs.subscript content hcontent).2
  have hword : Text.isBlankText (tagFor s.subscript) = false ∧ '\x7d' ∉ tagFor s.subscript := by
    unfold tagFor
    split <;> decide
  have hcases : v = successor s ∨
      v = ⟨s.letter, some (nextSubscripts s.subscript).2, s.primes⟩ ∨
      v = ⟨s.letter, some (tagFor s.subscript), s.primes⟩ ∨
      v = ⟨s.letter, s.subscript, s.primes + 1⟩ := by
    rw [variants_eq] at hv
    simp only [List.mem_append, List.mem_cons, List.not_mem_nil, or_false, List.mem_ite_nil_right]
      at hv
    tauto
  rcases hcases with rfl | rfl | rfl | rfl
  · refine ⟨⟨hs.letter, fun content hcontent => ?_⟩, Or.inl (by simp [successor]), rfl⟩
    exact nextSubscripts_proper hbrace (Or.inl (Option.some.inj hcontent).symm)
  · refine ⟨⟨hs.letter, fun content hcontent => ?_⟩, Or.inl (by simp), rfl⟩
    exact nextSubscripts_proper hbrace (Or.inr (Option.some.inj hcontent).symm)
  · refine ⟨⟨hs.letter, fun content hcontent => ?_⟩, Or.inl (by simp), rfl⟩
    obtain rfl := Option.some.inj hcontent
    exact hword
  · exact ⟨⟨hs.letter, hs.subscript⟩, Or.inr (by simp), rfl⟩

/-! ### Offers -/

theorem nodup_names_variants (hs : s.Proper) : (s.name :: (variants s).map Symbol.name).Nodup := by
  have hproper : ∀ v ∈ s :: variants s, v.Proper :=
    List.forall_mem_cons.mpr ⟨hs, fun v hv => (of_mem_variants hs hv).1⟩
  exact (List.nodup_map_iff_inj_on (nodup_variants s)).mpr fun v hv w hw hname =>
    ((hproper v hv).name_inj (hproper w hw)).mp hname

/-- For a symbol the names of its variants are offered as they are. -/
theorem alternatives_name (hs : s.Proper) (limit : Int) :
    alternatives limit s.name = takeLimit limit ((variants s).map Symbol.name) := by
  obtain ⟨hnew, hnodup⟩ := List.nodup_cons.mp (nodup_names_variants hs)
  have hkept : ((variants s).map Symbol.name).filter (· ≠ s.name) = (variants s).map Symbol.name :=
    List.filter_eq_self.mpr fun name hname => by
      have : name ≠ s.name := fun he => hnew (he ▸ hname)
      simpa using this
  rw [alternatives, options, hs.ofText?_name, hkept, Text.dedup_of_nodup hnodup]

theorem takeLimit_of_pos (hk : 1 ≤ limit) (names : List Name) :
    takeLimit limit names = names.take (limit.toNat - 1 + 1) := by
  rw [takeLimit, if_pos (by omega)]
  congr 1
  omega

/-- The first variant is the first offer. -/
theorem head?_alternatives (hs : s.Proper) (hk : 1 ≤ limit) :
    (alternatives limit s.name).head? = some (successor s).name := by
  rw [alternatives_name hs, takeLimit_of_pos hk]
  rfl

/-- `m` is given up for the first name offered. -/
def Renames (limit : Int) (m m' : Name) : Prop := (alternatives limit m).head? = some m'

/-- Renaming reaches subscripts with as large a number as one likes. -/
theorem exists_renames_number (hs : s.Proper) (hk : 1 ≤ limit) (bound : Nat) :
    ∃ v : Symbol, v.Proper ∧ Relation.ReflTransGen (Renames limit) s.name v.name ∧
      bound ≤ v.number := by
  induction bound with
  | zero => exact ⟨s, hs, .refl, Nat.zero_le _⟩
  | succ bound ih =>
    obtain ⟨v, hv, hchain, hbound⟩ := ih
    have hgrows : v.number < (successor v).number := (lt_lastNumber_nextSubscripts v.subscript).1
    have hproper : (successor v).Proper :=
      (of_mem_variants hv (by rw [variants_eq]; exact List.mem_cons_self)).1
    exact ⟨successor v, hproper, hchain.tail (head?_alternatives hv hk),
      Nat.lt_of_le_of_lt hbound hgrows⟩

/-- The largest number in a list of names is passed. -/
theorem exists_renames_free (hs : s.Proper) (hk : 1 ≤ limit) (taken : List Name) :
    ∃ name, Relation.ReflTransGen (Renames limit) s.name name ∧ name ∉ taken := by
  let numberOf (name : Name) : Nat := ((Symbol.ofText? name).map Symbol.number).getD 0
  obtain ⟨v, hv, hchain, hbound⟩ := exists_renames_number hs hk ((taken.map numberOf).sum + 1)
  refine ⟨v.name, hchain, fun htaken => ?_⟩
  have hle : numberOf v.name ≤ (taken.map numberOf).sum :=
    List.le_sum_of_mem (List.mem_map_of_mem htaken)
  have hnumber : numberOf v.name = v.number := by simp [numberOf, hv.ofText?_name]
  omega

/-- The name can be defined in place of `m`: it is read as a bare name with the letter of `m`,
whatever the lexicon, and the built-in lexicon does not reserve it. -/
structure Usable (m name : Name) : Prop where
  reads : ∃ s : Symbol, s.name = name ∧ m.head? = some s.letter ∧
    ∀ lex, Head.parse lex name = .ok (.parameter s)
  unreserved : ∀ complex, Lexicon.builtin.isReserved complex name = false

theorem usable_of_mem_variants (hs : s.Proper) (hv : v ∈ variants s) :
    Usable s.name v.name := by
  obtain ⟨hproper, hadorned, hletter⟩ := of_mem_variants hs hv
  exact ⟨⟨v, rfl, by rw [hletter]; rfl, hadorned.parse hproper⟩, hadorned.not_isReserved⟩

/-- For a name that was defined there are offers, which are usable, all different and other than
the name. Whatever names are taken, taking the first offer again and again reaches a free one. -/
theorem offers_usable (h : plan r live arities raw = .ok p) (hk : 1 ≤ limit) :
    alternatives limit p.head.name ≠ [] ∧ (alternatives limit p.head.name).Nodup ∧
      p.head.name ∉ alternatives limit p.head.name ∧
      (∀ name ∈ alternatives limit p.head.name, Usable p.head.name name) ∧
      ∀ taken : List Name, ∃ name,
        Relation.ReflTransGen (Renames limit) p.head.name name ∧ name ∉ taken := by
  obtain ⟨s, hs, hname⟩ := exists_symbol_of_plan h
  rw [← hname]
  obtain ⟨hnew, hnodup⟩ := List.nodup_cons.mp (nodup_names_variants hs)
  have hsublist : (alternatives limit s.name).Sublist ((variants s).map Symbol.name) := by
    rw [alternatives_name hs, takeLimit_of_pos hk]
    exact List.take_sublist _ _
  refine ⟨?_, hnodup.sublist hsublist, fun hin => hnew (hsublist.mem hin), fun name hin => ?_,
    exists_renames_free hs hk⟩
  · intro hnil
    have hfirst := head?_alternatives hs hk
    simp [hnil] at hfirst
  · obtain ⟨v, hv, rfl⟩ := List.mem_map.mp (hsublist.mem hin)
    exact usable_of_mem_variants hs hv

/-- With `k_{1}` and the first offer for it taken, a later one is free. -/
theorem offers_usable_for_subscript :
    let p : Plan := ⟨.parameter ⟨'k', some ['1'], 0⟩, text "2", [], [], [], [], none⟩
    plan {} [] [] (text "k_{1} = 2") = .ok p ∧
      alternatives 3 p.head.name = [text "k_{2}", text "k_{3}", text "k_{new}"] ∧
      Usable p.head.name (text "k_{new}") ∧
      ∃ name, Relation.ReflTransGen (Renames 3) p.head.name name ∧
        name ∉ [text "k_{1}", text "k_{2}"] := by
  intro p
  have hplan : plan {} [] [] (text "k_{1} = 2") = .ok p := by decide +kernel
  have hoffers : alternatives 3 p.head.name = [text "k_{2}", text "k_{3}", text "k_{new}"] := by
    decide +kernel
  obtain ⟨-, -, -, husable, hfree⟩ := offers_usable hplan (show (1 : Int) ≤ 3 by decide)
  exact ⟨hplan, hoffers, husable _ (by simp [hoffers]), hfree _⟩

end Naming

end Formulary
