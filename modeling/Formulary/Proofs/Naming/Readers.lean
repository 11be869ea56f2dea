import Formulary.Proofs.Formula.Terminal
import Formulary.Proofs.Naming.Offers

/-! # The readers of names

A name is read on its own, at the front of a definition and in formulas. Whatever stands in
its subscript, be it brackets, words of functions or another opening brace, each of the readers
takes the name of a symbol that was read for that symbol and for nothing else.
-/

namespace Formulary

variable {s : Symbol} {head : Head} {lex : Lexicon} {source t : Text} {n : Nat}

namespace Symbol

theorem eq_replicate_of_primes? (h : primes? t = some n) : t = List.replicate n '\'' := by
  unfold primes? at h
  split at h
  case isTrue hall =>
    obtain rfl := Option.some.inj h
    simpa [List.eq_replicate_iff] using hall
  case isFalse => simp at h

/-- What is read as a symbol spells it, but for blanks around it. -/
theorem name_of_ofText? (h : ofText? t = some s) : s.name = Text.strip t := by
  unfold ofText? at h
  split at h
  case h_1 => simp at h
  case h_2 letter rest hstrip =>
    rw [hstrip]
    split at h
    case isFalse => simp at h
    case isTrue =>
      split at h
      case h_1 body =>
        cases hcut : Text.cut? '\x7d' body with
        | none => simp [hcut] at h
        | some p =>
          obtain ⟨content, behind⟩ := p
          rw [hcut] at h
          dsimp only at h
          split at h
          case isTrue => simp at h
          case isFalse =>
            obtain ⟨n, hn, rfl⟩ := Option.map_eq_some_iff.mp h
            rw [Text.eq_of_cut? hcut, eq_replicate_of_primes? hn]
            simp [name, subscriptText]
      case h_2 =>
        obtain ⟨n, hn, rfl⟩ := Option.map_eq_some_iff.mp h
        rw [eq_replicate_of_primes? hn]
        rfl

/-- Each reader takes the symbol's name for the symbol: alone, as what is defined, where `y` is the
plot, and in a formula, where the name is the only token. -/
structure ReadAlike (s : Symbol) : Prop where
  alone : ofText? s.name = some s
  defined : ∀ lex, Head.parse lex s.name =
    .ok (if s.name = plotName then .anonymous else .parameter s)
  formula : ∀ lex functions, Formula.tokens lex functions s.name = [⟨.atom, s.name, 0⟩]

/-- No call starts at a name, even if its subscript holds calls. -/
theorem Proper.tokens_name (hs : s.Proper) (lex : Lexicon) (functions : List Name) :
    Formula.tokens lex functions s.name = [⟨.atom, s.name, 0⟩] := by
  have hcontent : ∀ content ∈ s.subscript, '\x7d' ∉ content := fun content hcontent =>
    (hs.subscript content hcontent).2
  have hcut : Formula.Cut .atom s.letter s.name.tail (Formula.written []) :=
    .name hs.letter hcontent (by simp [Text.Stops])
  -- a single piece is apart from others, and pieces that are apart are the tokens of their text
  have hreads : Formula.Reads (Formula.isCallable lex functions) [(.atom, s.name)] :=
    .plain hcut .nil
  have hapart : Formula.Apart [(.atom, s.name)] := by
    simp [Formula.Apart, Formula.ApartFrom, Formula.nextKind?]
  simpa [Formula.lay] using Formula.tokens_written hreads hapart

theorem Proper.readAlike (hs : s.Proper) : s.ReadAlike :=
  ⟨hs.ofText?_name, fun lex => Head.parse_name lex hs, hs.tokens_name⟩

end Symbol

/-- What a head defines and its formal parameters are names of proper symbols. -/
theorem Head.proper_of_parse (h : Head.parse lex source = .ok head) :
    (∀ s ∈ head.symbol?, s.Proper) ∧ ∀ f ∈ head.formals, ∃ s : Symbol, s.name = f ∧ s.Proper := by
  obtain ⟨words, hspells, -⟩ := Head.spells_of_parse h
  cases hspells with
  | anonymous => simp [Head.symbol?, Head.formals]
  | parameter hs => simpa [Head.symbol?, Head.formals] using hs
  | function hs hformals =>
    refine ⟨by simpa [Head.symbol?] using hs, fun f hf => ?_⟩
    obtain ⟨s, hs, rfl⟩ := List.mem_map.mp hf
    exact ⟨s, rfl, hformals s hs⟩

/-- A text that is read as a symbol is the symbol's name, but for blanks around it. On the names
that heads define or have as formal parameters, the readers agree. -/
theorem readers_agree :
    (∀ t s, Symbol.ofText? t = some s → s.name = Text.strip t) ∧
      ∀ lex source head, Head.parse lex source = .ok head →
        (∀ s ∈ head.symbol?, s.ReadAlike) ∧
          ∀ f ∈ head.formals, ∃ s : Symbol, s.name = f ∧ s.ReadAlike := by
  refine ⟨fun t s => Symbol.name_of_ofText?, fun lex source head h => ?_⟩
  obtain ⟨hsymbol, hformals⟩ := Head.proper_of_parse h
  refine ⟨fun s hs => (hsymbol s hs).readAlike, fun f hf => ?_⟩
  obtain ⟨s, hname, hs⟩ := hformals f hf
  exact ⟨s, hname, hs.readAlike⟩

/-- A function and its formal parameters, one of them the plot's name, with calls begun in the
subscripts. -/
theorem readers_agree_for_calls_in_subscripts :
    let g : Symbol := ⟨'g', some (text "f("), 1⟩
    let k : Symbol := ⟨'k', some (text "sin (_\x7b"), 1⟩
    let source := text " g_\x7bf(\x7d' ( y ,k _\x7bsin (_\x7b\x7d')"
    let spaced := text " k_\x7bsin (_\x7b\x7d' "
    Head.parse Lexicon.builtin source = .ok (.function g [plotName, k.name]) ∧ g.ReadAlike ∧
      (∃ s : Symbol, s.name = plotName ∧ s.ReadAlike) ∧
      (∃ s : Symbol, s.name = k.name ∧ s.ReadAlike) ∧
      Symbol.ofText? spaced = some k ∧ k.name = Text.strip spaced := by
  intro g k source spaced
  have hparse : Head.parse Lexicon.builtin source = .ok (.function g [plotName, k.name]) := by
    decide +kernel
  have hspaced : Symbol.ofText? spaced = some k := by decide +kernel
  obtain ⟨hsymbol, hformals⟩ := readers_agree.2 _ _ _ hparse
  refine ⟨hparse, hsymbol g rfl, hformals plotName ?_, hformals k.name ?_, hspaced,
    readers_agree.1 _ _ hspaced⟩
  · exact List.mem_cons_self
  · exact List.mem_cons_of_mem _ List.mem_cons_self

end Formulary
