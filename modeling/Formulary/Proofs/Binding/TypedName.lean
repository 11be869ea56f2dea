import Formulary.Proofs.Binding.Sides
import Formulary.Proofs.Head.Grammar
import Formulary.Proofs.Lexicon.Idempotence

/-! # The name as it was typed

Words are replaced, but for the one that stands before the sign. Replacing the others
moves no sign to where none was and leaves the text up to the end of that word as it
is. So a word of several letters comes to the reader of heads as it was typed, and no
head starts with two letters.
-/

namespace Formulary

open Assignment (find? nameSpan?)
open Lexicon (plainOperator builtin builtin_regular)
open Text (Stops Spaced)

variable {r : Reading} {raw t : Text} {words : List Text} {head : Head} {p : Char → Bool}

/-- What the first word starts with, or a blank, comes first. -/
theorem Text.Spaced.stops (h : Spaced words t) (hp : ∀ c, Text.isBlank c = true → p c = false)
    (hw : ∀ w ∈ words.head?, w ≠ [] ∧ Stops p w) : Stops p t := by
  cases h with
  | nil hblanks => exact fun c hc => hp c (hblanks c (List.mem_of_mem_head? hc))
  | @cons blanks w t words hblanks =>
    obtain ⟨hne, hstop⟩ := hw w rfl
    obtain ⟨c, w, rfl⟩ := List.exists_cons_of_ne_nil hne
    cases blanks with
    | nil => simpa [Stops] using hstop
    | cons b blanks => simpa [Stops] using hp b (hblanks b List.mem_cons_self)

/-- A symbol's letter is followed by no other letter. -/
theorem Symbol.words_eq (s : Symbol) : ∃ more, s.words = [s.letter] :: more ∧
    ∀ w ∈ more.head?, w ≠ [] ∧ Stops isLatin w := by
  refine ⟨_, rfl, ?_⟩
  cases s.subscript with
  | some content => simp [subscriptText, Stops, isLatin]
  | none =>
    cases s.primes with
    | zero => simp
    | succ n => simp [List.replicate_succ, Stops, isLatin]

/-- No head starts with two letters. -/
theorem Head.Spells.words_eq (h : Head.Spells head words) : ∃ c more, words = [c] :: more ∧
    isLetter c = true ∧ ∀ w ∈ more.head?, w ≠ [] ∧ Stops isLatin w := by
  cases h with
  | anonymous => exact ⟨'y', [], rfl, by decide, by simp⟩
  | @parameter s hs =>
    obtain ⟨more, hmore, hnext⟩ := s.words_eq
    exact ⟨s.letter, more, hmore, hs.letter, hnext⟩
  | @function s formals hs =>
    obtain ⟨more, hmore, hnext⟩ := s.words_eq
    refine ⟨s.letter, more ++ ['('] :: (listed formals ++ [[')']]), by rw [hmore]; rfl,
      hs.letter, ?_⟩
    cases more with
    | nil => simp [Stops, isLatin]
    | cons w more => exact hnext

/-- A definition whose name has two letters is not read. -/
theorem Plan.error_of_word {blanks rest : Text} {c d : Char}
    (hraw : r.lexicon.normalize raw = blanks ++ c :: d :: rest)
    (hblanks : ∀ b ∈ blanks, Text.isBlank b = true) (hc : isLatin c = true)
    (hd : isLatin d = true) :
    ∃ e, read r raw = .error e := by
  cases hread : read r raw with
  | error e => exact ⟨e, rfl⟩
  | ok q =>
    exfalso
    obtain ⟨⟨left, right⟩, hsides, hread⟩ := ok_of_bind hread
    obtain ⟨written, hwritten, -⟩ := ok_of_bind hread
    obtain ⟨before, before', behind, behind', hbefore, -, hwhole, -⟩ := exists_of_sides hsides
    obtain ⟨hbefore, hbefore'⟩ := List.forall_mem_append.mp hbefore
    obtain ⟨words, hspells, hspaced⟩ := Head.spells_of_parse (writtenHead_eq_ok.mp hwritten).2
    obtain ⟨e, more, rfl, he, hnext⟩ := hspells.words_eq
    obtain ⟨gap, u, rfl, hgap, hmore⟩ := hspaced.of_cons
    -- the letter of the head is the first that is not blank, so the other one follows it
    have hfront : blanks ++ c :: d :: rest = (before ++ gap) ++
        e :: (u ++ (before' ++ '=' :: (behind ++ (right ++ behind')))) := by
      rw [← hraw, hwhole]
      simp
    have hstop : ∀ {x : Char} {v : Text}, isLetter x = true → Stops Text.isBlank (x :: v) :=
      fun hx y hy => by
        obtain rfl := Option.some.inj hy
        exact isBlank_of_isLetter hx
    have hrest := congrArg (List.dropWhile Text.isBlank) hfront
    rw [Text.dropWhile_append_stop hblanks (hstop (by simp [isLetter, hc])),
      Text.dropWhile_append_stop (List.forall_mem_append.mpr ⟨hbefore, hgap⟩) (hstop he)] at hrest
    have hafter : Stops isLatin (u ++ (before' ++ '=' :: (behind ++ (right ++ behind')))) := by
      have hu : Stops isLatin u := hmore.stops (fun _ => isLatin_of_isBlank) hnext
      have hgap : Stops isLatin before' := fun b hb =>
        isLatin_of_isBlank (hbefore' b (List.mem_of_mem_head? hb))
      exact hu.append (hgap.append (by simp [Stops, isLatin]))
    rw [← (List.cons.inj hrest).2] at hafter
    simp [hafter d rfl] at hd

/-- Words are replaced, but the text keeps its sign or stays without one, and up to the end of the
letters before the sign it is as it was. If these are two or more, the definition is refused,
whatever is in use. -/
theorem normalize_keeps_name (raw : Text) :
    let t := builtin.replaceBackslash (raw.map plainOperator)
    (find? (builtin.normalize raw)).isSome = (find? t).isSome ∧
    ∀ start stop, nameSpan? t = some (start, stop) →
      (builtin.normalize raw).take stop = t.take stop ∧
      (2 ≤ stop - start → ∀ r : Reading, r.lexicon = builtin →
        ∃ e, ∀ live arities, plan r live arities raw = .error e) := by
  intro t
  have h := builtin_regular
  have hnormal : builtin.normalize raw = builtin.replaceWords (nameSpan? t) t := rfl
  refine ⟨?_, fun start stop hspan => ?_⟩
  · rw [hnormal, Lexicon.replaceWords_eq]
    exact h.sameSigns_renamedFrom.found none 0 0 0
  · obtain ⟨blanks, name, rest, ht, hblanks, hne, hname, hstop, he⟩ :=
      Lexicon.exists_of_nameSpan? hspan
    obtain ⟨rfl, rfl⟩ := Prod.mk.inj he
    rw [hspan, ht, h.replaceWords_named hblanks hne hname hstop rfl, ← List.append_assoc] at hnormal
    refine ⟨?_, fun hlong r hlex => ?_⟩
    · rw [hnormal, ht, ← List.append_assoc, ← List.length_append, List.take_left, List.take_left]
    · have hletters : 2 ≤ name.length := by omega
      obtain ⟨c, d, name, rfl⟩ : ∃ c d more, name = c :: d :: more := by
        match name, hletters with
        | c :: d :: more, _ => exact ⟨c, d, more, rfl⟩
      obtain ⟨hc, hd, -⟩ := (List.forall_mem_cons.mp hname).imp_right List.forall_mem_cons.mp
      rw [← hlex, List.append_assoc] at hnormal
      obtain ⟨e, herror⟩ := Plan.error_of_word hnormal hblanks hc hd
      refine ⟨e, fun live arities => ?_⟩
      rw [Plan.plan_eq_read, herror]
      rfl

/-- A word that stands before the sign and behind it. -/
theorem normalize_keeps_name_alpha :
    let raw := text " alpha = \\alpha + alpha"
    nameSpan? (builtin.replaceBackslash (raw.map plainOperator)) = some (1, 6) ∧
      builtin.normalize raw = text " alpha = α + α" ∧
      ∃ e, ∀ live arities, plan {} live arities raw = .error e := by
  intro raw
  have hspan : nameSpan? (builtin.replaceBackslash (raw.map plainOperator)) = some (1, 6) := by
    decide +kernel
  exact ⟨hspan, by decide +kernel,
    ((normalize_keeps_name raw).2 1 6 hspan).2 (by decide) {} rfl⟩

end Formulary
