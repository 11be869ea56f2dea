import Formulary.Proofs.Binding.Sides
import Formulary.Proofs.Lexicon.Tally

/-! # Heads on their own

A head can be read without its definition, and then only the commands in it are
replaced. In a definition operators and words are replaced as well, but for the name,
so the two agree on what the head is exactly where commands are all there is to replace.
-/

namespace Formulary

open Formulary.Bracket (openAfter?)
open Lexicon (plainOperator)
open Text (Spaced Trim)

variable {r : Reading} {live : LiveNames} {arities : Formula.Arities} {raw left right t u v : Text}
  {p : Plan}

/-! ### The sign put behind a text -/

namespace Assignment

/-- Where a search without success has come to. -/
theorem findFrom_eq_none_of_append {prev : Option Char} {stack stack' : List Char} {i : Nat}
    (hopen : openAfter? stack t = some stack')
    (h : findFrom prev stack.length i (t ++ u) = none) :
    findFrom (t.getLast?.or prev) stack'.length (i + t.length) u = none := by
  induction t generalizing prev stack i with
  | nil =>
    obtain rfl := Option.some.inj hopen
    exact h
  | cons c t ih =>
    have hlast : (c :: t).getLast?.or prev = t.getLast?.or (some c) := by
      cases t with
      | nil => rfl
      | cons d t => simp [List.getLast?_cons]
    rw [hlast, List.length_cons, Nat.add_comm t.length, ← Nat.add_assoc]
    rw [List.cons_append, findFrom] at h
    unfold openAfter? at hopen
    split at hopen
    case isTrue hc =>
      rw [if_pos hc] at h
      exact ih hopen h
    case isFalse hc =>
      rw [if_neg hc] at h
      split at hopen
      case isTrue hclose =>
        rw [if_pos hclose] at h
        split at hopen
        case h_1 => simp at hopen
        case h_2 =>
          split at hopen
          case isTrue => exact ih hopen h
          case isFalse => simp at hopen
      case isFalse hclose =>
        rw [if_neg hclose] at h
        split at h
        · simp at h
        · exact ih hopen h

end Assignment

/-- Between brackets that are closed, a sign with blanks around it is found. -/
theorem Bracket.not_balanced_of_unsigned (hunsigned : Assignment.find? (v ++ text "= 1") = none)
    (hlast : ∀ c ∈ v.getLast?, c = ' ') : isBalanced (v ++ text "= 1") = false := by
  rw [Bool.eq_false_iff, ne_eq, isBalanced_iff, openAfter?_append]
  intro h
  obtain ⟨stack, hstack, h⟩ := Option.bind_eq_some_iff.mp h
  have hplain : ∀ c ∈ text "= 1", isOpening c = false ∧ isClosing c = false := by
    simp [text, isOpening, isClosing]
  rw [openAfter?_of_plain hplain] at h
  obtain rfl := Option.some.inj h
  have hfound := Assignment.findFrom_eq_none_of_append hstack hunsigned
  have hprev : Assignment.joinsEquals (v.getLast?.or none) = Assignment.joinsEquals none := by
    cases hv : v.getLast? with
    | none => rfl
    | some c =>
      obtain rfl := hlast c hv
      rfl
  rw [Assignment.findFrom_congr hprev] at hfound
  simp [text, Assignment.findFrom, isOpening, isClosing, Assignment.joinsEquals] at hfound

/-- What ends with a sign and a number, stripped: its first blanks are gone. -/
theorem strip_append_sign (v : Text) :
    Text.strip (v ++ text "= 1") = v.dropWhile Text.isBlank ++ text "= 1" := by
  have hsplit : v ++ text "= 1" =
      v.takeWhile Text.isBlank ++ ((v.dropWhile Text.isBlank ++ text "= 1") ++ []) := by
    rw [List.append_nil, ← List.append_assoc, List.takeWhile_append_dropWhile]
  have htrim : Trim (v.dropWhile Text.isBlank ++ text "= 1") := by
    constructor
    · cases hv : v.dropWhile Text.isBlank with
      | nil =>
        intro c hc
        obtain rfl : '=' = c := by simpa [text] using hc
        decide
      | cons c rest =>
        have hstop := Text.stops_dropWhile Text.isBlank v
        rw [hv] at hstop
        exact hstop
    · rw [List.reverse_append]
      intro c hc
      obtain rfl : '1' = c := by simpa [text] using hc
      decide
  rw [hsplit]
  exact Text.strip_append htrim (by simp [text]) (fun _ => List.mem_takeWhile_imp) (by simp)

/-- So the right-hand side of an earlier sign is not closed. -/
theorem Bracket.not_balanced_of_earlier {behind : Text} (hright : u ++ behind = v ++ text "= 1")
    (hbehind : ∀ c ∈ behind, Text.isBlank c = true) (hlast : ∀ c ∈ v.getLast?, c = ' ')
    (hunsigned : Assignment.find? (Text.strip u) = none) :
    isBalanced (Text.strip u) = false := by
  have hnone : ∀ c ∈ ([] : Text), Text.isBlank c = true := by simp
  have hstrip : Text.strip u = v.dropWhile Text.isBlank ++ text "= 1" :=
    calc Text.strip u = Text.strip ([] ++ (u ++ behind)) := (Text.strip_blanks hnone hbehind).symm
      _ = v.dropWhile Text.isBlank ++ text "= 1" := by
        rw [List.nil_append, hright, strip_append_sign]
  rw [hstrip] at hunsigned ⊢
  apply not_balanced_of_unsigned hunsigned
  intro c hc
  apply hlast
  rw [← List.takeWhile_append_dropWhile (p := Text.isBlank) (l := v), List.getLast?_append,
    Option.mem_def.mp hc]
  rfl

/-- The sign that parts the text is the one put behind it. -/
theorem Plan.sides_of_sign (h : sides r raw = .ok (left, right))
    (hraw : r.lexicon.normalize raw = v ++ text " = 1")
    (hbalanced : Bracket.isBalanced right = true) : left = Text.strip v ∧ right = ['1'] := by
  have hspace : ∀ c ∈ [' '], Text.isBlank c = true := List.forall_mem_singleton.mpr (by decide)
  have hnone : ∀ c ∈ ([] : Text), Text.isBlank c = true := by simp
  unfold sides at h
  split at h
  case isTrue => simp at h
  dsimp only at h
  split at h
  case isTrue => simp at h
  obtain ⟨l, r', ht, rfl, rfl, -, hunsigned⟩ := Assignment.of_split h
  obtain ⟨before, behind, hsplit, hbefore, hbehind⟩ := Text.strip_split (r.lexicon.normalize raw)
  rw [ht, hraw] at hsplit
  have hwhole : (v ++ [' ']) ++ '=' :: [' ', '1'] = (before ++ l) ++ '=' :: (r' ++ behind) := by
    simpa [text] using hsplit
  have hsame : before ++ l = v ++ [' '] → r' ++ behind = [' ', '1'] →
      Text.strip l = Text.strip v ∧ Text.strip r' = ['1'] := by
    intro hleft hright
    constructor
    · calc Text.strip l = Text.strip (before ++ (l ++ [])) := (Text.strip_blanks hbefore hnone).symm
        _ = Text.strip ([] ++ (v ++ [' '])) := by rw [List.append_nil, hleft, List.nil_append]
        _ = Text.strip v := Text.strip_blanks hnone hspace
    · calc Text.strip r' = Text.strip ([] ++ (r' ++ behind)) :=
            (Text.strip_blanks hnone hbehind).symm
        _ = ['1'] := by rw [hright]; decide
  rcases List.append_eq_append_iff.mp hwhole with ⟨m, hfront, hback⟩ | ⟨m, hfront, hback⟩
  · cases m with
    | nil => exact hsame (by simpa using hfront) (by simpa using hback.symm)
    | cons c m =>
      obtain ⟨-, hback⟩ := List.cons.inj hback
      have hin : '=' ∈ [' ', '1'] := by simp [hback]
      exact absurd hin (by decide)
  · cases m with
    | nil => exact hsame (by simpa using hfront.symm) (by simpa using hback)
    | cons c m =>
      -- with an earlier sign, this one stands on the right-hand side
      obtain ⟨rfl, hright⟩ := List.cons.inj hback
      have hlast : ∀ c ∈ m.getLast?, c = ' ' := by
        intro c hc
        have hends : (v ++ [' ']).getLast? = some c := by
          rw [hfront, List.getLast?_append_cons, List.getLast?_cons, Option.mem_def.mp hc]
          rfl
        simpa [eq_comm] using hends
      have hopen := Bracket.not_balanced_of_earlier hright hbehind hlast hunsigned
      simp [hopen] at hbalanced

/-! ### Heads of the same words -/

/-- Texts that are read as the same head have the same characters, blanks left out. -/
theorem Head.solid_of_parse {lex lex' : Lexicon} {head : Head} (ht : parse lex t = .ok head)
    (hu : parse lex' u = .ok head) : Text.solid t = Text.solid u := by
  have hspelling : ∀ {lex : Lexicon} {t : Text}, parse lex t = .ok head →
      Text.solid t = Text.solid head.spelling := by
    intro lex t ht
    obtain ⟨words, hwords, hspaced⟩ := spells_of_parse ht
    rw [hspaced.solid, (spaced_spelling hwords).solid]
  rw [hspelling ht, hspelling hu]

/-- The head of a definition by a number is read as it is written there. -/
theorem Plan.parse_of_sign (h : plan r live arities raw = .ok p)
    (hraw : r.lexicon.normalize raw = v ++ text " = 1") :
    Head.parse r.lexicon (Text.strip v) = .ok p.head := by
  obtain ⟨left, right, written, hsteps⟩ := steps_of_plan h
  obtain ⟨rfl, rfl⟩ := sides_of_sign hsteps.sides hraw hsteps.balanced
  have hparse := (writtenHead_eq_ok.mp hsteps.head).2
  have hone : Numeral.isNumeral ['1'] = true := by decide
  have hsettled : settle written ['1'] = written := by
    cases written with
    | parameter s => rw [settle, if_pos hone]
    | _ => rfl
  rw [(of_assemble hsteps.assembled).1, hsettled]
  exact hparse

/-- A head is read on its own as in a definition exactly if commands are all that is replaced in
it. -/
theorem Head.classify_iff (hlex : r.lexicon = Lexicon.builtin)
    (h : plan r live arities (t ++ text " = 1") = .ok p) :
    classify t = .ok p.head ↔ Lexicon.builtin.normalize (t ++ text " = 1") =
      Lexicon.builtin.replaceBackslash (t ++ text " = 1") := by
  have hregular := Lexicon.builtin_regular
  have hend : Lexicon.IsEnd (text " = 1") := by
    simp [Lexicon.IsEnd, text, isLatin]
  have hplain : ∀ c ∈ text " = 1", plainOperator c = c := by simp [text, plainOperator]
  obtain ⟨v, hnormal⟩ := hregular.exists_normalize_append_end (t := t) hend hplain
  have hcommands : Lexicon.builtin.replaceBackslash (t ++ text " = 1") =
      Lexicon.builtin.replaceBackslash t ++ text " = 1" := by
    rw [Lexicon.replaceBackslash_eq, Lexicon.replaceBackslash_eq]
    exact hregular.replacedFrom_append_end hend
  have hparse := Plan.parse_of_sign h (hlex ▸ hnormal)
  rw [hlex] at hparse
  constructor
  · intro hclassify
    have hsolid := Head.solid_of_parse hparse hclassify
    rw [Text.solid_strip, Text.solid_strip] at hsolid
    apply hregular.normalize_eq_replaceBackslash
    rw [hnormal, hcommands, Text.solid_append, Text.solid_append, hsolid]
  · intro hsame
    rw [hnormal, hcommands] at hsame
    rw [List.append_cancel_right hsame] at hparse
    exact hparse

/-- A head with blanks and commands in it is read on its own. -/
theorem Head.classify_commands :
    let t := text " f( \\beta ,k_{pi})"
    let p : Plan := ⟨.function ⟨'f', none, 0⟩ [['β'], text "k_{pi}"], ['1'], [], [], [], [], none⟩
    plan {} [] [] (t ++ text " = 1") = .ok p ∧ classify t = .ok p.head := by
  intro t p
  have hplan : plan {} [] [] (t ++ text " = 1") = .ok p := by decide +kernel
  exact ⟨hplan, (classify_iff rfl hplan).mpr (by decide +kernel)⟩

/-- In a definition this formal is a Greek letter, and on its own it is a word. -/
theorem Head.classify_word :
    (plan {} [] [] (text "f(alpha)" ++ text " = 1")).map Plan.head =
        .ok (.function ⟨'f', none, 0⟩ [['α']]) ∧
      classify (text "f(alpha)") =
        .error (.multiLetter .formal (text "alpha") (some ['α'])) := by
  decide +kernel

end Formulary
