import Formulary.Proofs.Calc.Rename.Literal
import Formulary.Proofs.Calc.Rename.Term

/-! # Lexemes of texts with another word

Each step takes the same lexeme from both texts, but for the word. So the text with another
word in place of one reads as the other name in place of the one.
-/

namespace Formulary.Lexeme

open Text (Reworded Stops ofName_cons isAsciiDigit isIdentRest isIdentRest_of_isBlank
  isIdentRest_of_start
  isIdentStart)
open Identifier (ofName)

variable {W : Text → Prop} {m n : Name} {b : Bool} {t u : Text} {c : Char}

/-! ### Steps -/

theorem find?_congr {α : Type} {p q : α → Bool} {l : List α} (h : ∀ a ∈ l, p a = q a) :
    l.find? p = l.find? q := by
  induction l with
  | nil => rfl
  | cons a l ih =>
    obtain ⟨ha, hl⟩ := List.forall_mem_cons.mp h
    rw [List.find?_cons, List.find?_cons, ha, ih hl]

theorem operator?_reworded (h : Reworded W m n b t u) : operator? u = operator? t := by
  have hlong : ∀ o ∈ longOperators, o.all isPunctuation = true := by decide +kernel
  have hfind : longOperators.find? (fun o => o.isPrefixOf u) =
      longOperators.find? (fun o => o.isPrefixOf t) :=
    find?_congr fun o ho => isPrefixOf_reworded
      (fun c hc => isIdentRest_of_isPunctuation (List.all_eq_true.mp (hlong o ho) c hc)) h
  unfold operator?
  rw [hfind]
  cases t with
  | nil => rw [h.of_nil]
  | cons c t =>
    obtain ⟨u, rfl⟩ := List.head?_eq_some_iff.mp h.head?
    rfl

/-- What a step takes from a text is what it takes from the reworded one, under its other name. -/
structure SameStep (W : Text → Prop) (m n : Name) (x y : Option Lexeme × Text) : Prop where
  taken : y.1 = x.1.map (rename (swapName m n))
  after : Reworded W m n false x.2 y.2
  known : ∀ id, x.1 = some (.name id) → W id

theorem isIdentStart_of_isAsciiDigit (hc : isAsciiDigit c = true) : isIdentStart c = false := by
  have hall : ∀ k ∈ List.range 128, isAsciiDigit (Char.ofNat k) = true →
      isIdentStart (Char.ofNat k) = false := by
    decide +kernel
  have hchar := hall c.toNat (by rw [Text.isAsciiDigit_iff] at hc; simp; omega)
  rw [Char.ofNat_toNat] at hchar
  exact hchar hc

theorem cut?_start (hc : isIdentStart c = true) : cut? c t =
    some (some (.name (c :: t.takeWhile isIdentRest)), t.dropWhile isIdentRest) := by
  have hne (d : Char) (hd : isIdentStart d = false) : (c == d) = false := by
    rw [beq_eq_false_iff_ne]
    rintro rfl
    simp [hc] at hd
  have hdigit : isAsciiDigit c = false := by
    by_contra h
    simp [isIdentStart_of_isAsciiDigit (by simpa using h)] at hc
  have hspace := hne ' ' (by decide +kernel)
  have htab := hne '\t' (by decide +kernel)
  have hfeed := hne '\x0c' (by decide +kernel)
  have hline := hne '\n' (by decide +kernel)
  have hremark := hne '#' (by decide +kernel)
  have hpoint := hne '.' (by decide +kernel)
  simp [cut?, hspace, htab, hfeed, hline, hremark, hpoint, hdigit, hc]

theorem endsCleanly_reworded (h : Reworded W m n b t u) : endsCleanly u = endsCleanly t := by
  rw [endsCleanly, endsCleanly, h.head?]

theorem stops_of_endsCleanly (h : endsCleanly t = true) : Stops isIdentRest t := by
  intro d hd
  simpa [endsCleanly, Option.mem_def.mp hd] using h

/-- What is taken with a number, unless a word goes on behind it. -/
def cleanly? (x : Option (Lexeme × Text)) : Option (Option Lexeme × Text) :=
  match x with
  | some (l, after) => if endsCleanly after then some (some l, after) else none
  | none => none

theorem cleanly?_reworded {x y : Option (Lexeme × Text)} (h : Option.Rel (SameFront W m n) x y)
    (hname : ∀ r ∈ x, ∀ id, r.1 ≠ .name id) :
    Option.Rel (SameStep W m n) (cleanly? x) (cleanly? y) := by
  cases h with
  | none => exact .none
  | @some x y hxy =>
    obtain ⟨l, after⟩ := x
    obtain ⟨l', after'⟩ := y
    obtain ⟨rfl, b, hafter⟩ : l' = l ∧ _ := hxy
    simp only [cleanly?, endsCleanly_reworded hafter]
    split
    · have hl : rename (swapName m n) l' = l' := by
        cases l' with
        | name id => exact absurd rfl (hname _ rfl id)
        | _ => rfl
      exact .some ⟨by rw [Option.map_some, hl], hafter.of_stops (stops_of_endsCleanly ‹_›),
        fun id hid => absurd (Option.some.inj hid) (hname _ rfl id)⟩
    · exact .none

theorem swapName_ofName (m n : Name) : swapName m n (ofName m) = ofName n := if_pos rfl

/-- A name that is read from both texts. -/
theorem name_reworded (h : Reworded W m n false (c :: t) u) (hc : isIdentStart c = true) :
    ∃ w, u = c :: w ∧ Option.Rel (SameStep W m n) (cut? c t) (cut? c w) := by
  have hrest := isIdentRest_of_start hc
  generalize hr : c :: t = r at h
  cases h with
  | nil => cases hr
  | @keep _ d t u hword h =>
    obtain ⟨rfl, rfl⟩ := List.cons.inj hr
    refine ⟨u, rfl, ?_⟩
    rw [hrest] at h
    obtain ⟨htake, hdrop⟩ := h.run
    have hword := hword rfl hc
    rw [List.takeWhile_cons_of_pos hrest] at hword
    have hname : swapName m n (c :: t.takeWhile isIdentRest) = c :: t.takeWhile isIdentRest :=
      if_neg hword.2
    rw [cut?_start hc, cut?_start hc, htake]
    refine .some ⟨by rw [Option.map_some, rename, hname], hdrop, fun id hid => ?_⟩
    rw [← Lexeme.name.inj (Option.some.inj hid)]
    exact hword.1
  | @swap t u hW hstops h =>
    obtain ⟨rfl, rfl⟩ := List.cons.inj hr
    refine ⟨_, rfl, ?_⟩
    have htake (n : Name) {t : Text} (ht : Stops isIdentRest t) :
        (('_' :: Identifier.encode n) ++ t).takeWhile isIdentRest = '_' :: Identifier.encode n :=
      Text.takeWhile_append_stop (tail_ofName_chars n) ht
    have hdrop (n : Name) {t : Text} (ht : Stops isIdentRest t) :
        (('_' :: Identifier.encode n) ++ t).dropWhile isIdentRest = t :=
      Text.dropWhile_append_stop (tail_ofName_chars n) ht
    rw [cut?_start hc, cut?_start hc]
    erw [htake m hstops, htake n (h.stops hstops), hdrop m hstops, hdrop n (h.stops hstops)]
    refine .some ⟨?_, h.of_stops hstops, fun id hid => ?_⟩
    · exact congrArg (fun id => some (Lexeme.name id)) (swapName_ofName m n).symm
    · obtain rfl : ofName m = id := Lexeme.name.inj (Option.some.inj hid)
      exact hW

theorem cut?_reworded {c : Char} {t u : Text} (h : Reworded W m n false (c :: t) (c :: u)) :
    Option.Rel (SameStep W m n) (cut? c t) (cut? c u) := by
  by_cases hstart : isIdentStart c = true
  · obtain ⟨w, hw, hname⟩ := name_reworded h hstart
    obtain rfl := (List.cons.inj hw).2
    exact hname
  have hs : c ≠ 's' := by
    rintro rfl
    exact hstart (by decide +kernel)
  obtain ⟨_, hu, hrest⟩ := h.of_cons hs
  obtain rfl := (List.cons.inj hu).2
  rw [cut?, cut?, hrest.head?, operator?_reworded h]
  split
  · rename_i hblank
    have hc : isIdentRest c = false := by
      simp only [Bool.or_eq_true, beq_iff_eq] at hblank
      rcases hblank with (rfl | rfl) | rfl <;> decide +kernel
    exact .some ⟨rfl, hc ▸ hrest, fun _ hid => by cases hid⟩
  split
  · rename_i hline
    obtain rfl : c = '\n' := by simpa using hline
    exact .some ⟨rfl, isIdentRest_mark.2.1 ▸ hrest, fun _ hid => by cases hid⟩
  split
  · obtain ⟨b', hafter⟩ := hrest.dropWhile (p := (· != '\n')) fun d hd => by
      simpa using ne_of_isIdentRest hd isIdentRest_mark.2.1
    refine .some ⟨rfl, hafter.of_stops fun d hd => ?_, fun _ hid => by cases hid⟩
    obtain rfl : d = '\n' := by simpa using Text.stops_dropWhile (· != '\n') t d hd
    exact isIdentRest_mark.2.1
  split
  · exact cleanly?_reworded (number?_reworded h) fun r hr id => number?_ne_name r hr
  split
  · rename_i hquote
    have hc : isIdentRest c = false := by
      simp only [Bool.or_eq_true, beq_iff_eq] at hquote
      rcases hquote with rfl | rfl
      · exact isIdentRest_mark.2.2.1
      · exact isIdentRest_mark.2.2.2
    have hquoted := quotedRest?_reworded hc hrest
    generalize quotedRest? c t = x at hquoted
    generalize quotedRest? c _ = y at hquoted
    cases hquoted with
    | none => exact .none
    | some hafter => exact .some ⟨rfl, hafter, fun _ hid => by cases hid⟩
  split
  · rename_i o ho
    obtain ⟨hsplit, hne, hchars⟩ := isIdentRest_of_operator? ho
    refine .some ⟨rfl, drop_reworded hne hchars h ?_, fun _ hid => by cases hid⟩
    rw [hsplit]
    simp
  · split
    · rename_i hbang
      obtain rfl : c = '!' := by simpa using hbang
      have hc : isIdentRest '!' = false := by decide +kernel
      exact .some ⟨rfl, hc ▸ hrest, fun _ hid => by cases hid⟩
    · exact .none

/-! ### The sequence -/

theorem suffix_of_fraction (t : Text) : (fraction t).2.2 <:+ t := by
  unfold fraction
  split
  · exact (suffix_of_digits rfl).trans (List.suffix_cons ..)
  · exact List.suffix_refl _

theorem suffix_of_numberOf? {front back rest after : Text} {dotted : Bool} {l : Lexeme}
    (h : numberOf? front dotted back rest = some (l, after)) : after <:+ rest := by
  unfold numberOf? at h
  dsimp only at h
  split at h
  · rename_i hexponent
    obtain ⟨-, rfl⟩ := Prod.mk.inj (Option.some.inj h)
    exact suffix_of_exponent? hexponent
  · split at h
    · obtain ⟨-, rfl⟩ := Prod.mk.inj (Option.some.inj h)
      exact List.suffix_refl _
    · split at h
      · cases h
      · obtain ⟨-, rfl⟩ := Prod.mk.inj (Option.some.inj h)
        exact List.suffix_refl _

/-- A number takes at least its first character. -/
theorem suffix_of_number?_cons {after : Text} {l : Lexeme} (hc : isAsciiDigit c = true ∨ c = '.')
    (h : number? (c :: t) = some (l, after)) : after <:+ t := by
  rw [number?_eq] at h
  refine (suffix_of_numberOf? h).trans ?_
  rcases hc with hc | rfl
  · rw [digits_digit hc]
    exact (suffix_of_fraction _).trans (moreDigits_suffix t)
  · rw [digits_of_head? (by simp; decide)]
    exact suffix_of_digits rfl

/-- A step takes at least the first character. -/
theorem length_of_cut? {x : Option Lexeme × Text} (h : cut? c t = some x) :
    x.2.length ≤ t.length := by
  unfold cut? at h
  dsimp only at h
  split at h
  · obtain rfl := Option.some.inj h
    exact le_rfl
  split at h
  · obtain rfl := Option.some.inj h
    exact le_rfl
  split at h
  · obtain rfl := Option.some.inj h
    exact (List.dropWhile_suffix _).length_le
  split at h
  · rename_i hc
    split at h
    · rename_i hnumber
      split at h
      · obtain rfl := Option.some.inj h
        refine (suffix_of_number?_cons ?_ hnumber).length_le
        simp only [Bool.or_eq_true, Bool.and_eq_true, beq_iff_eq] at hc
        exact hc.imp_right And.left
      · cases h
    · cases h
  split at h
  · obtain rfl := Option.some.inj h
    exact (List.dropWhile_suffix _).length_le
  split at h
  · obtain ⟨after, hafter, rfl⟩ := Option.map_eq_some_iff.mp h
    obtain ⟨u, rfl⟩ := split_of_quotedRest? hafter
    simp
    omega
  split at h
  · rename_i o ho
    obtain rfl := Option.some.inj h
    have hne := List.length_pos_iff.mpr (isIdentRest_of_operator? ho).2.1
    simp
    omega
  · split at h
    · obtain rfl := Option.some.inj h
      exact le_rfl
    · cases h

theorem scan_reworded (h : Reworded W m n false t u) {fuel fuel' depth : Nat}
    (hfuel : t.length ≤ fuel)
    (hfuel' : u.length ≤ fuel') :
    scan fuel' depth u = (scan fuel depth t).map (List.map (rename (swapName m n))) := by
  induction fuel generalizing t u fuel' depth with
  | zero =>
    obtain rfl := List.length_eq_zero_iff.mp (Nat.le_zero.mp hfuel)
    rw [h.of_nil]
    simp [scan]
  | succ fuel ih =>
    cases t with
    | nil =>
      rw [h.of_nil]
      simp [scan]
    | cons c t =>
      obtain ⟨u, rfl⟩ := List.head?_eq_some_iff.mp h.head?
      obtain ⟨fuel', rfl⟩ : ∃ k, fuel' = k + 1 := ⟨fuel' - 1, by simp at hfuel'; omega⟩
      have hcut := cut?_reworded h
      rw [scan, scan]
      cases hx : cut? c t with
      | none =>
        cases hy : cut? c u with
        | none => rfl
        | some y =>
          rw [hx, hy] at hcut
          cases hcut
      | some x =>
        cases hy : cut? c u with
        | none =>
          rw [hx, hy] at hcut
          cases hcut
        | some y =>
          rw [hx, hy] at hcut
          have hlength := length_of_cut? hx
          have hlength' := length_of_cut? hy
          obtain ⟨taken, after⟩ := x
          obtain ⟨taken', after'⟩ := y
          cases hcut with
          | some hstep =>
            obtain ⟨htaken, hafter, -⟩ := hstep
            dsimp only at htaken hafter
            subst htaken
            dsimp only at hlength hlength'
            simp only [List.length_cons] at hfuel hfuel'
            have hrest (depth : Nat) : scan fuel' depth after' =
                (scan fuel depth after).map (List.map (rename (swapName m n))) :=
              ih hafter (by omega) (by omega)
            cases taken with
            | none => exact hrest depth
            | some l =>
              have hother : (do return rename (swapName m n) l :: (← scan fuel' depth after')) =
                  (do return l :: (← scan fuel depth after)).map
                    (List.map (rename (swapName m n))) := by
                rw [hrest]
                cases scan fuel depth after <;> rfl
              cases l with
              | lineEnd =>
                by_cases hd : 0 < depth
                · simpa [hd, rename] using hrest depth
                · simpa [hd, rename] using hother
              | op o =>
                simp only [Option.map_some, rename, Option.bind_eq_bind, Option.bind_some]
                cases depthAfter? depth o with
                | none => rfl
                | some d =>
                  simp only [Option.bind_some, hrest]
                  cases scan fuel d after <;> rfl
              | _ => exact hother

/-- The names that are read from a text are words of it. -/
theorem known_of_scan (h : Reworded W m n false t u) {fuel depth : Nat}
    {ls : List Lexeme} (hscan : scan fuel depth t = some ls) {id : Text} (hid : .name id ∈ ls) :
    W id := by
  induction fuel generalizing t u depth ls with
  | zero =>
    cases t with
    | nil =>
      obtain rfl : [] = ls := by simpa [scan] using hscan
      cases hid
    | cons c t => simp [scan] at hscan
  | succ fuel ih =>
    cases t with
    | nil =>
      obtain rfl : [] = ls := by simpa [scan] using hscan
      cases hid
    | cons c t =>
      obtain ⟨u, rfl⟩ := List.head?_eq_some_iff.mp h.head?
      have hcut := cut?_reworded h
      rw [scan] at hscan
      obtain ⟨⟨taken, after⟩, hx, hscan⟩ := Option.bind_eq_some_iff.mp hscan
      rw [hx] at hcut
      generalize cut? c u = y at hcut
      cases hcut with
      | some hstep =>
      obtain ⟨-, hafter, hknown⟩ := hstep
      dsimp only at hscan hafter hknown
      have hlater {l : Lexeme} {more : List Lexeme} {depth : Nat} (hmore : scan fuel depth after =
          some more)
          (hl : some l = taken) (hid : .name id ∈ l :: more) : W id := by
        rcases List.mem_cons.mp hid with rfl | hid
        · exact hknown id hl.symm
        · exact ih hafter hmore hid
      split at hscan
      · rename_i heq
        obtain ⟨-, rfl⟩ := Prod.mk.inj heq
        exact ih hafter hscan hid
      · rename_i heq
        obtain ⟨hl, rfl⟩ := Prod.mk.inj heq
        split at hscan
        · exact ih hafter hscan hid
        · obtain ⟨more, hmore, hls⟩ := Option.bind_eq_some_iff.mp hscan
          obtain rfl := Option.some.inj hls
          exact hlater hmore hl.symm hid
      · rename_i heq
        obtain ⟨hl, rfl⟩ := Prod.mk.inj heq
        obtain ⟨depth', -, hscan⟩ := Option.bind_eq_some_iff.mp hscan
        obtain ⟨more, hmore, hls⟩ := Option.bind_eq_some_iff.mp hscan
        obtain rfl := Option.some.inj hls
        exact hlater hmore hl.symm hid
      · rename_i heq
        obtain ⟨hl, rfl⟩ := Prod.mk.inj heq
        obtain ⟨more, hmore, hls⟩ := Option.bind_eq_some_iff.mp hscan
        obtain rfl := Option.some.inj hls
        exact hlater hmore hl.symm hid

theorem splitOperators_rename {f : Text → Text} (fuel : Nat) (t : Text) :
    (splitOperators fuel t).map (rename f) = splitOperators fuel t := by
  induction fuel generalizing t with
  | zero => rfl
  | succ fuel ih =>
    rw [splitOperators]
    split
    · rw [List.map_cons, ih]
      rfl
    · rfl

theorem regroup_rename {f : Text → Text} (run : Text) (ls : List Lexeme) :
    regroup run (ls.map (rename f)) = (regroup run ls).map (rename f) := by
  induction ls generalizing run with
  | nil => exact (splitOperators_rename _ _).symm
  | cons l ls ih =>
    cases l with
    | op o => exact ih (run ++ o)
    | _ => simp [regroup, rename, ih, splitOperators_rename]

theorem stripRight_split (t : Text) :
    ∃ behind, t = Text.stripRight t ++ behind ∧ ∀ c ∈ behind, Text.isBlank c = true := by
  refine ⟨(t.reverse.takeWhile Text.isBlank).reverse, ?_, fun c hc => ?_⟩
  · rw [Text.stripRight, ← List.reverse_append, List.takeWhile_append_dropWhile,
      List.reverse_reverse]
  · exact List.mem_takeWhile_imp (List.mem_reverse.mp hc)

theorem stripRight_append {w : Text} (hw : Stops Text.isBlank w.reverse) :
    Text.stripRight (w ++ t) = w ++ Text.stripRight t := by
  have hself : w.reverse.dropWhile Text.isBlank = w.reverse := Text.dropWhile_eq_self hw
  rw [Text.stripRight, List.reverse_append, List.dropWhile_append, hself, Text.stripRight]
  split
  · rename_i hnil
    rw [List.isEmpty_iff.mp hnil]
    simp
  · simp

theorem stripRight_cons : Text.stripRight (c :: t) =
    if Text.stripRight t = [] ∧ Text.isBlank c = true then [] else c :: Text.stripRight t := by
  rw [Text.stripRight, List.reverse_cons, List.dropWhile_append, Text.stripRight]
  cases hd : t.reverse.dropWhile Text.isBlank with
  | nil => cases hc : Text.isBlank c <;> simp [hc]
  | cons d ds => simp

theorem stops_of_takeWhile {p : Char → Bool} (h : t.takeWhile p = []) : Stops p t := by
  intro c hc
  obtain ⟨t, rfl⟩ := List.head?_eq_some_iff.mp hc
  by_contra hp
  simp [List.takeWhile_cons, hp] at h

theorem takeWhile_stripRight (t : Text) :
    (Text.stripRight t).takeWhile isIdentRest = t.takeWhile isIdentRest := by
  obtain ⟨behind, ht, hbehind⟩ := stripRight_split t
  have hstops : Stops isIdentRest behind := fun c hc =>
    isIdentRest_of_isBlank (hbehind c (List.mem_of_mem_head? hc))
  generalize Text.stripRight t = front at ht
  subst ht
  rw [List.takeWhile_append]
  split
  · rename_i hall
    rw [Text.takeWhile_eq_nil hstops, List.append_nil]
    exact (List.takeWhile_prefix _).eq_of_length hall
  · rfl

theorem reworded_stripRight (h : Reworded W m n b t u) :
    Reworded W m n b (Text.stripRight t) (Text.stripRight u) := by
  have hname (n : Name) (t : Text) :
      Text.stripRight (ofName n ++ t) = ofName n ++ Text.stripRight t := by
    refine stripRight_append fun c hc => ?_
    have hword :=
      (Identifier.isName_ofName n).chars c (List.mem_reverse.mp (List.mem_of_mem_head? hc))
    by_contra hblank
    simp [isIdentRest_of_isBlank (by simpa using hblank)] at hword
  induction h with
  | nil => exact .nil
  | @keep b c t u hword h ih =>
    have hnil : Text.stripRight u = [] ↔ Text.stripRight t = [] := by
      rw [← List.head?_eq_none_iff, ih.head?, List.head?_eq_none_iff]
    simp only [stripRight_cons, hnil]
    split
    · exact .nil
    · refine .keep (fun hb => ?_) ih
      have hrun := hword hb
      rw [List.takeWhile_cons] at hrun ⊢
      rwa [takeWhile_stripRight]
  | @swap t u hW hstops h ih =>
    rw [hname, hname]
    exact .swap hW
      (stops_of_takeWhile ((takeWhile_stripRight t).trans (Text.takeWhile_eq_nil hstops))) ih

theorem reworded_stripLeft (h : Reworded W m n false t u) :
    Reworded W m n false (Text.stripLeft t) (Text.stripLeft u) := by
  have hs : ¬ Text.isBlank 's' = true := by decide
  generalize hb : false = b at h
  induction h with
  | nil => exact .nil
  | @keep b c t u hword h ih =>
    cases hc : Text.isBlank c with
    | true =>
      rw [Text.stripLeft, Text.stripLeft, List.dropWhile_cons_of_pos hc,
        List.dropWhile_cons_of_pos hc]
      have hword := isIdentRest_of_isBlank hc
      rw [hword] at ih
      exact hb ▸ ih rfl
    | false =>
      have hc : ¬ Text.isBlank c = true := by simp [hc]
      rw [Text.stripLeft, Text.stripLeft, List.dropWhile_cons_of_neg hc,
        List.dropWhile_cons_of_neg hc]
      exact .keep hword h
  | swap hW hstops h ih =>
    have hkept (n : Name) (t : Text) : Text.stripLeft (ofName n ++ t) = ofName n ++ t :=
      List.dropWhile_cons_of_neg hs
    rw [hkept, hkept]
    exact .swap hW hstops h

theorem strip_reworded (h : Reworded W m n false t u) :
    Reworded W m n false (Text.strip t) (Text.strip u) :=
  reworded_stripRight (reworded_stripLeft h)

/-- The names in a text are the words of it, so a text with another word in place of one reads as
the same lexemes with that name. -/
theorem ofText?_reworded (h : Reworded W m n false t u) :
    ofText? u = (ofText? t).map (List.map (rename (swapName m n))) := by
  have hdrop (ls : List Lexeme) : (ls.map (rename (swapName m n))).dropWhile (· == .lineEnd) =
      (ls.dropWhile (· == .lineEnd)).map (rename (swapName m n)) := by
    rw [List.dropWhile_map]
    congr 2
    funext l
    cases l <;> rfl
  have hstrip := strip_reworded h
  rw [ofText?, ofText?, scan_reworded hstrip le_rfl le_rfl, Option.map_map, Option.map_map]
  congr 1
  funext ls
  simp only [Function.comp_apply, hdrop, regroup_rename]

theorem mem_of_mem_regroup {run : Text} {ls : List Lexeme} {id : Text}
    (h : .name id ∈ regroup run ls) : .name id ∈ ls := by
  induction ls generalizing run with
  | nil => exact absurd h name_notMem_splitOperators
  | cons l ls ih =>
    cases l with
    | op o => exact List.mem_cons_of_mem _ (ih h)
    | _ =>
      rcases List.mem_append.mp h with h | h
      · exact absurd h name_notMem_splitOperators
      · rcases List.mem_cons.mp h with h | h
        · exact List.mem_cons.mpr (Or.inl h)
        · exact List.mem_cons_of_mem _ (ih h)

/-- The names that are read from a text are words of it. -/
theorem known_of_ofText? (h : Reworded W m n false t u) {ls : List Lexeme}
    (hls : ofText? t = some ls) {id : Text} (hid : .name id ∈ ls) : W id := by
  obtain ⟨scanned, hscan, rfl⟩ := Option.map_eq_some_iff.mp hls
  refine known_of_scan (strip_reworded h) hscan ?_
  exact (List.dropWhile_sublist _).subset (mem_of_mem_regroup hid)

end Formulary.Lexeme
