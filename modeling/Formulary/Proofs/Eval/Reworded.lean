import Formulary.Proofs.Eval.Written

/-! # Texts with another word

A text may have another word wherever it has a certain one. Words are runs of characters,
so texts with another word are put together where none goes on across the joint. A formula
in which a name stands where another one did is so written out as a text in which the one
identifier stands where the other one did.
-/

namespace Formulary

/-- A name in place of another. -/
def swapName (m n : Name) (id : Text) : Text :=
  if id = Identifier.ofName m then Identifier.ofName n else id

namespace Text

open Identifier (ofName)

variable {W W' : Text → Prop} {m n : Name} {b : Bool} {t u v w x : Text} {c : Char}

/-- A text whose words satisfy `W`, and the text with the identifier of one name as a word
wherever it has that of another. The flag tells whether a word goes on at the front. -/
inductive Reworded (W : Text → Prop) (m n : Name) : Bool → Text → Text → Prop
  | nil {b : Bool} : Reworded W m n b [] []
  | keep {b : Bool} {c : Char} {t u : Text}
      (hword : b = false → isIdentStart c = true →
        W ((c :: t).takeWhile isIdentRest) ∧ (c :: t).takeWhile isIdentRest ≠ ofName m)
      (h : Reworded W m n (isIdentRest c) t u) : Reworded W m n b (c :: t) (c :: u)
  | swap {t u : Text} (hW : W (ofName m)) (hstops : Stops isIdentRest t)
      (h : Reworded W m n true t u) :
      Reworded W m n false (ofName m ++ t) (ofName n ++ u)

theorem ofName_cons (n : Name) : ofName n = 's' :: '_' :: Identifier.encode n := rfl

namespace Reworded

theorem head? (h : Reworded W m n b t u) : u.head? = t.head? := by
  cases h <;> rfl

theorem stops (h : Reworded W m n b t u) (ht : Stops isIdentRest t) : Stops isIdentRest u := by
  rwa [Stops, h.head?]

/-- Behind a word, where none begins. -/
theorem of_stops (h : Reworded W m n b t u) (ht : Stops isIdentRest t) :
    Reworded W m n false t u := by
  cases h with
  | nil => exact .nil
  | @keep _ c t u hword h =>
    refine .keep (fun _ hstart => ?_) h
    have hrest := isIdentRest_of_start hstart
    simp [ht c rfl] at hrest
  | swap hW hstops h => exact .swap hW hstops h

/-- Where no identifier begins, the character is kept. -/
theorem of_cons (h : Reworded W m n b (c :: t) u) (hc : c ≠ 's') :
    ∃ w, u = c :: w ∧ Reworded W m n (isIdentRest c) t w := by
  generalize ht : c :: t = r at h
  cases h with
  | nil => cases ht
  | keep hword h =>
    obtain ⟨rfl, rfl⟩ := List.cons.inj ht
    exact ⟨_, rfl, h⟩
  | swap => exact absurd (List.cons.inj ht).1 hc

theorem of_nil (h : Reworded W m n b [] u) : u = [] := by
  cases h
  rfl

/-! ### Runs -/

theorem run (h : Reworded W m n true t u) :
    u.takeWhile isIdentRest = t.takeWhile isIdentRest ∧
      Reworded W m n false (t.dropWhile isIdentRest) (u.dropWhile isIdentRest) := by
  generalize hb : true = b at h
  induction h with
  | nil => exact ⟨rfl, .nil⟩
  | @keep b c t u hword h ih =>
    cases hc : isIdentRest c with
    | true =>
      obtain ⟨htake, hdrop⟩ := ih hc.symm
      simp [hc, htake, hdrop]
    | false =>
      simp only [List.takeWhile_cons, List.dropWhile_cons, hc]
      refine ⟨rfl, .of_stops (.keep hword h) ?_⟩
      simpa [Stops] using hc
  | swap => cases hb

theorem dropWhile {p : Char → Bool} (hp : ∀ c, isIdentRest c = true → p c = true)
    (h : Reworded W m n b t u) : ∃ b', Reworded W m n b' (t.dropWhile p) (u.dropWhile p) := by
  have hname (n : Name) (t : Text) : (ofName n ++ t).dropWhile p = t.dropWhile p :=
    List.dropWhile_append_of_pos fun c hc => hp c ((Identifier.isName_ofName n).chars c hc)
  induction h with
  | nil => exact ⟨b, .nil⟩
  | @keep b c t u hword h ih =>
    cases hc : p c with
    | true =>
      rw [List.dropWhile_cons_of_pos hc, List.dropWhile_cons_of_pos hc]
      exact ih
    | false =>
      have hc : ¬ p c = true := by simp [hc]
      rw [List.dropWhile_cons_of_neg hc, List.dropWhile_cons_of_neg hc]
      exact ⟨b, .keep hword h⟩
  | swap hW hstops h ih => simpa only [hname] using ih

theorem mono (h : Reworded W m n b t u) (hW : ∀ id, W id → W' id) : Reworded W' m n b t u := by
  induction h with
  | nil => exact .nil
  | keep hword _ ih => exact .keep (fun hb hc => (hword hb hc).imp_left (hW _)) ih
  | swap hm hstops _ ih => exact .swap (hW _ hm) hstops ih

/-- In front of a text where no word goes on, it does not matter whether one was before it. -/
theorem of_flag (h : Reworded W m n false t u) (ht : Stops isIdentRest t) :
    Reworded W m n b t u := by
  cases h with
  | nil => exact .nil
  | keep hword h => exact .keep (fun _ => hword rfl) h
  | swap =>
    have hs : isIdentRest 's' = false := ht 's' rfl
    exact absurd hs (by decide +kernel)

/-! ### Texts put together -/

theorem takeWhile_append (hv : Stops isIdentRest v) :
    (t ++ v).takeWhile isIdentRest = t.takeWhile isIdentRest := by
  rw [List.takeWhile_append]
  split
  · rename_i hall
    rw [takeWhile_eq_nil hv, List.append_nil]
    exact ((List.takeWhile_prefix _).eq_of_length hall).symm
  · rfl

theorem append (h : Reworded W m n b t u) (hv : Reworded W m n false v w)
    (hstops : Stops isIdentRest v) :
    Reworded W m n b (t ++ v) (u ++ w) := by
  induction h with
  | nil => exact hv.of_flag hstops
  | @keep b c t u hword _ ih =>
    refine .keep (fun hb hc => ?_) ih
    have hkept := hword hb hc
    rw [← takeWhile_append hstops] at hkept
    exact hkept
  | @swap t u hm ht _ ih =>
    rw [List.append_assoc, List.append_assoc]
    exact .swap hm (ht.append hstops) ih

/-- Characters that go on with a word are kept. -/
theorem kept_run (hx : ∀ c ∈ x, isIdentRest c = true) (h : Reworded W m n true t u) :
    Reworded W m n true (x ++ t) (x ++ u) := by
  induction x with
  | nil => exact h
  | cons c x ih =>
    obtain ⟨hc, hx⟩ := List.forall_mem_cons.mp hx
    exact .keep (fun hb => absurd hb (by simp)) (hc ▸ ih hx)

/-- A word is kept, or exchanged. -/
theorem word (hx : IsName x) (hW : W x) (ht : Stops isIdentRest t) (h : Reworded W m n false t u) :
    Reworded W m n false (x ++ t) (swapName m n x ++ u) := by
  unfold swapName
  split
  · rename_i heq
    subst heq
    exact .swap hW ht (h.of_flag ht)
  · rename_i hne
    obtain ⟨c, x, rfl⟩ := List.exists_cons_of_ne_nil hx.ne_nil
    obtain ⟨hc, hrun⟩ := List.forall_mem_cons.mp hx.chars
    have htake := takeWhile_append_stop hx.chars ht
    refine .keep (fun _ _ => ?_) (hc ▸ kept_run hrun (h.of_flag ht))
    exact htake.symm ▸ ⟨hW, hne⟩

/-- Characters that begin no word are kept. -/
theorem not_start (hx : ∀ c ∈ x, isIdentStart c = false)
    (hend : Stops isIdentRest t ∨ ∀ c ∈ x, isIdentRest c = false) (h : Reworded W m n false t u) :
    Reworded W m n false (x ++ t) (x ++ u) := by
  have hkeep : ∀ b, (b = true → Stops isIdentRest t) → Reworded W m n b (x ++ t) (x ++ u) := by
    induction x with
    | nil =>
      rintro (_ | _) hb
      · exact h
      · exact h.of_flag (hb rfl)
    | cons c x ih =>
      intro b _
      obtain ⟨hc, hx⟩ := List.forall_mem_cons.mp hx
      refine .keep (fun _ hstart => ?_) (ih hx (hend.imp_right fun h => fun d hd =>
        h d (by simp [hd])) _ fun hb => ?_)
      · simp [hc] at hstart
      · refine hend.resolve_right fun hrest => ?_
        simp [hrest c] at hb
  exact hkeep false nofun

end Reworded

/-! ### Words of a text -/

/-- The words of a text satisfy `W`. -/
def Words (W : Text → Prop) (t : Text) : Prop := ∀ x after, IsName x → WordIn x after t → W x

/-- Without brackets no name is called. -/
theorem OnlyNames.words (h : OnlyNames W t) (hplain : '(' ∉ t) : Words W t := by
  intro x after hx hword
  refine h x after hx hword fun hl => hplain ?_
  obtain ⟨-, -, before, rfl, -⟩ := hword
  have hin : '(' ∈ after := (List.dropWhile_sublist _).mem (List.mem_of_head? hl)
  simp [hin]

theorem reworded_of_words (h : Words W t) (hne : ¬ W (ofName m)) : Reworded W m n false t t := by
  have hend : ∀ before rest : Text, before ++ rest = t → ∀ b : Bool,
      (b = false → Stops isIdentRest before.reverse) → Reworded W m n b rest rest := by
    intro before rest
    induction rest generalizing before with
    | nil => exact fun _ _ _ => .nil
    | cons c rest ih =>
      intro ht b hb
      refine .keep (fun hflag hstart => ?_) (ih (before ++ [c]) (by simpa using ht)
        _ fun hc => by simpa [Stops] using hc)
      have hword : W ((c :: rest).takeWhile isIdentRest) := by
        refine h _ ((c :: rest).dropWhile isIdentRest) ⟨?_, fun d hd => List.mem_takeWhile_imp hd⟩
          ⟨fun d hd => List.mem_takeWhile_imp hd, stops_dropWhile _ _, before, ?_, hb hflag⟩
        · simpa [List.takeWhile_cons_of_pos (isIdentRest_of_start hstart)] using hstart
        · rw [List.takeWhile_append_dropWhile, ht]
      exact ⟨hword, fun heq => hne (heq ▸ hword)⟩
  exact hend [] t rfl false fun _ => by simp [Stops]

theorem eq_nil_of_stops {before : Text} (hall : ∀ c ∈ before, isIdentRest c = true)
    (h : Stops isIdentRest before.reverse) : before = [] := by
  by_contra hne
  obtain ⟨c, hc⟩ := Option.isSome_iff_exists.mp (List.getLast?_isSome.mpr hne)
  have hstop := h c (List.head?_reverse.trans hc)
  simp [hall c (List.mem_of_getLast? hc)] at hstop

theorem stops_of_append {before : Text} (h : Stops isIdentRest (u ++ before).reverse) :
    Stops isIdentRest before.reverse := by
  cases hb : before.reverse with
  | nil => simp [Stops]
  | cons c rest => simpa [Stops, List.reverse_append, hb] using h

/-- The words of a text that has another word somewhere satisfy what was asked of them. -/
theorem Reworded.of_split (h : Reworded W m n b t u) {before after : Text}
    (ht : t = before ++ (x ++ after)) (hx : IsName x) (hafter : Stops isIdentRest after)
    (hbefore : Stops isIdentRest before.reverse) (hb : before = [] → b = false) : W x := by
  induction h generalizing before with
  | nil =>
    have hnil : before = [] ∧ x = [] ∧ after = [] := by simpa using ht.symm
    exact absurd hnil.2.1 hx.ne_nil
  | @keep b c t u hword h ih =>
    cases before with
    | nil =>
      obtain ⟨d, w, rfl⟩ := List.exists_cons_of_ne_nil hx.ne_nil
      obtain ⟨rfl, -⟩ := List.cons.inj ht
      have htake := takeWhile_append_stop hx.chars hafter
      have hstart : isIdentStart c = true := by simpa using hx.start
      have hW := (hword (hb rfl) hstart).1
      rw [ht] at hW
      exact htake ▸ hW
    | cons d before =>
      obtain ⟨rfl, hrest⟩ := List.cons.inj ht
      refine ih hrest (stops_of_append (u := [c]) hbefore) fun hnil => ?_
      subst hnil
      simpa [Stops] using hbefore
  | @swap t u hm hstops h ih =>
    have hall := (Identifier.isName_ofName m).chars
    rcases List.append_eq_append_iff.mp ht with ⟨rest, hsplit, hrest⟩ | ⟨rest, hsplit, hrest⟩
    · refine ih hrest (stops_of_append (hsplit ▸ hbefore)) fun hnil => ?_
      rw [hnil, List.append_nil] at hsplit
      exact absurd (hsplit ▸ eq_nil_of_stops (hsplit ▸ hall) hbefore)
        (Identifier.isName_ofName m).ne_nil
    · have hnil := eq_nil_of_stops
        (fun c hc => hall c (hsplit ▸ List.mem_append_left _ hc)) hbefore
      rw [hnil, List.nil_append] at ht
      have htake := takeWhile_append_stop hall hstops
      rw [ht, takeWhile_append_stop hx.chars hafter] at htake
      exact htake ▸ hm

theorem Reworded.words (h : Reworded W m n false t u) : Words W t := by
  rintro x after hx ⟨-, hafter, before, ht, hbefore⟩
  exact h.of_split ht hx hafter hbefore fun _ => rfl

/-- What is reworded with a name that does not stand in it is the text itself. -/
theorem Reworded.eq (h : Reworded W m m b t u) : u = t := by
  induction h with
  | nil => rfl
  | keep _ _ ih => rw [ih]
  | swap _ _ _ ih => rw [ih]

/-- Where a name is not a word, it may be exchanged for any other. -/
theorem Reworded.unswapped (h : Reworded W n n b t u) (hne : ∀ id, W id → W' id ∧ id ≠ ofName m) :
    Reworded W' m k b t u := by
  induction h with
  | nil => exact .nil
  | keep hword _ ih => exact .keep (fun hb hc => hne _ (hword hb hc).1) ih
  | @swap t u hm ht h ih =>
    obtain ⟨hm', hother⟩ := hne _ hm
    have hword := word (Identifier.isName_ofName n) hm' ht (ih.of_stops ht)
    rwa [swapName, if_neg hother] at hword

end Text

/-! ### Formulas written out -/

namespace Repertoire

open Formula (Piece Reads Apart Single IsOther written)
open Text (IsName Reworded Stops isIdentRest isIdentStart)

variable {W W' : Text → Prop} {m n : Name} {known : Name → Bool} {p : Piece} {ps : List Piece}
  {u v : Text}
  {uvs : List (Text × Text)}

/-- How a piece is written, and how it is written under the other name. -/
inductive Rewrites (W : Text → Prop) (m n : Name) : Piece → Text → Text → Prop
  | symbol {name : Name} (h : W (Identifier.ofName name)) :
      Rewrites W m n (.atom, name) (Identifier.ofName name) (swapName m n (Identifier.ofName name))
  | bracketed {name : Name} {body body' : Text} (h : Reworded W m n false body body') :
      Rewrites W m n (.atom, name) (brackets body) (brackets body')
  | called {name : Name} {u : Text} (h : IsName u) (hu : u.head? ≠ some 'u') (hW : W u)
      (hne : u ≠ Identifier.ofName m) : Rewrites W m n (.func, name) u u
  | copied {p : Piece} (hatom : p.1 ≠ .atom) (hfunc : p.1 ≠ .func) :
      Rewrites W m n p (copied p) (copied p)

theorem Rewrites.mono (h : Rewrites W m n p u v) (hW : ∀ id, W id → W' id) :
    Rewrites W' m n p u v := by
  cases h with
  | symbol h => exact .symbol (hW _ h)
  | bracketed h => exact .bracketed (h.mono hW)
  | called h hu hw hne => exact .called h hu (hW _ hw) hne
  | copied hatom hfunc => exact .copied hatom hfunc

theorem Rewrites.writes (h : Rewrites W m n p u v) : Writes (fun _ => True) p u := by
  cases h with
  | symbol => exact .symbol trivial
  | bracketed => exact .bracketed fun _ _ _ _ _ => trivial
  | called h hu => exact .called h hu
  | copied hatom hfunc => exact .copied hatom hfunc

theorem writes_of_rewrites (h : List.Forall₂ (fun p uv => Rewrites W m n p uv.1 uv.2) ps uvs) :
    List.Forall₂ (Writes fun _ => True) ps (uvs.map Prod.fst) :=
  List.forall₂_map_right_iff.mpr (h.imp fun _ _ => Rewrites.writes)

theorem reworded_brackets {body body' : Text} (h : Reworded W m n false body body')
    (hu : Reworded W m n false u v) :
    Reworded W m n false (brackets body ++ u) (brackets body' ++ v) := by
  have hopen : isIdentStart '(' = false ∧ isIdentRest '(' = false := by decide +kernel
  have hclose : isIdentStart ')' = false ∧ isIdentRest ')' = false := by decide +kernel
  have hclosing : Reworded W m n false ([')'] ++ u) ([')'] ++ v) :=
    hu.not_start (by simpa using hclose.1) (Or.inr (by simpa using hclose.2))
  have hinner := h.append hclosing (Text.stops_append (by simp) (by simpa using hclose.2))
  have houter := hinner.not_start (x := ['(']) (by simpa using hopen.1)
    (Or.inr (by simpa using hopen.2))
  simpa [brackets] using houter

/-- What is copied begins no name, and goes on with one only at the end of a number. -/
theorem copied_chars {k : Formula.TokenKind} {c : Char} {w after : Text}
    (hcut : Formula.Cut k c w after) (hatom : k ≠ .atom)
    (hplain : k = .other → ∀ d ∈ c :: w, isIdentRest d = false) :
    (∀ d ∈ copied (k, c :: w), isIdentStart d = false) ∧
      (k = .number ∨ ∀ d ∈ copied (k, c :: w), isIdentRest d = false) := by
  constructor
  · intro d hd
    rcases start_of_mem_copied hcut hatom hd with hstart | ⟨rfl, rfl, rfl, -⟩
    · exact hstart
    · by_contra hstart
      have hrest := Text.isIdentRest_of_start (by simpa using hstart)
      simp [hplain rfl d List.mem_cons_self] at hrest
  · cases hcut with
    | number => exact Or.inl rfl
    | subscripted => exact absurd rfl hatom
    | letter => exact absurd rfl hatom
    | space hc hw =>
      refine Or.inr fun d hd => Text.isIdentRest_of_isBlank ?_
      rcases List.mem_cons.mp hd with rfl | hd
      · exact hc
      · exact hw d hd
    | opening =>
      exact Or.inr (Text.eq_false_of_any (t := ['(']) (by decide +kernel))
    | closing =>
      exact Or.inr (Text.eq_false_of_any (t := [')']) (by decide +kernel))
    | other =>
      refine Or.inr fun d hd => ?_
      by_cases hpower : c = '^'
      · subst hpower
        obtain rfl : d = '*' := by simpa [copied, text] using hd
        decide +kernel
      · obtain rfl : d = c := by simpa [copied, hpower] using hd
        exact hplain rfl d List.mem_cons_self

/-- Written out under another name, a formula has the word for it wherever it had the other one. No
stray character belongs to names. -/
theorem reworded_flatten (hps : Reads known ps) (ha : Apart ps) (hone : Single ps)
    (hplain : ∀ p ∈ ps, p.1 = .other → ∀ c ∈ p.2, isIdentRest c = false)
    (h : List.Forall₂ (fun p uv => Rewrites W m n p uv.1 uv.2) ps uvs) :
    Reworded W m n false (uvs.map Prod.fst).flatten (uvs.map Prod.snd).flatten := by
  induction hps generalizing uvs with
  | nil =>
    cases h
    exact .nil
  | @call name ps hname hk hl hps ih =>
    cases h with
    | @cons _ uv _ uvs h huvs =>
    obtain ⟨u, v⟩ := uv
    have hrest := ih ha.2 hone.of_cons (fun p hp => hplain p (List.mem_cons_of_mem _ hp)) huvs
    have hlead := leads_flatten hps (writes_of_rewrites huvs) hl
    cases h with
    | called hu _ hW hne =>
      have hword := hrest.word hu hW (hlead.stops isIdentRest_of_gap)
      rwa [swapName, if_neg hne] at hword
    | copied _ hfunc => exact absurd rfl hfunc
  | @plain k c w ps hcut hps ih =>
    cases h with
    | @cons _ uv _ uvs h huvs =>
    obtain ⟨u, v⟩ := uv
    have hrest := ih ha.2 hone.of_cons (fun p hp => hplain p (List.mem_cons_of_mem _ hp)) huvs
    have hstops (hk : Formula.endsOperand k = true) :
        Stops isIdentRest (uvs.map Prod.fst).flatten := by
      intro d hd
      obtain ⟨rest, hrest⟩ := List.head?_eq_some_iff.mp hd
      by_contra hword
      have hstray := stray_of_apartFrom hk hps hone.of_cons ha.1 (writes_of_rewrites huvs) hrest
        (by simpa using hword)
      exact hword (hplain _ (List.mem_cons_of_mem _ hstray.2.1) rfl d List.mem_cons_self)
    cases h with
    | symbol hW => exact hrest.word (Identifier.isName_ofName _) hW (hstops rfl)
    | bracketed hbody => exact reworded_brackets hbody hrest
    | called => cases hcut
    | copied hatom hfunc =>
      obtain ⟨hstart, hend⟩ := copied_chars hcut hatom fun hk => hplain _ List.mem_cons_self hk
      refine hrest.not_start hstart (hend.imp_left fun hk => hstops ?_)
      rw [hk]
      rfl
  | @tail c body =>
    obtain ⟨d, hd⟩ := hone (.other, '_' :: '{' :: body) (by simp) rfl
    simp at hd

end Repertoire

end Formulary
