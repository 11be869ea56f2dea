import Formulary.Proofs.Eval.Unfolding
import Formulary.Proofs.Sheet.Reach

/-! # Definitions rewritten

A definition may have another right-hand side and other formals. All else of the sheet stays,
so the sheet is linked as before, and evaluation goes into the same other functions. From a
definition it never goes into the definition itself.
-/

namespace Formulary

open Relation

/-- The definition with other formals and another right-hand side. -/
def Definition.rewrite (d : Definition) (formals : List Name) (rhs : Text) : Definition :=
  { d with formals, rhs }

namespace Sheet

variable {s : Sheet} {d e : Definition} {name : Name} {formals : List Name} {rhs key : Text}

/-! ### A definition rewritten -/

/-- The sheet with another right-hand side for the definition, and other formals. -/
def rewrite (s : Sheet) (d : Definition) (formals : List Name) (rhs : Text) : Sheet :=
  { s with definitions := s.definitions.replace (d.rewrite formals rhs) }

theorem entries_rewrite (h : s.definitions.Keyed) (hd : d ∈ s.definitions.entries) :
    (s.rewrite d formals rhs).definitions.entries =
      s.definitions.entries.map fun e => if e = d then d.rewrite formals rhs else e := by
  have hin : (d.rewrite formals rhs).id ∈ s.definitions.entries.map Definition.id :=
    List.mem_map.mpr ⟨d, hd, rfl⟩
  have hplace : (s.rewrite d formals rhs).definitions.entries =
      Keyed.place Definition.id (d.rewrite formals rhs) s.definitions.entries :=
    DefinitionBook.put_eq_place _ _
  rw [hplace, Keyed.place_of_mem h.ids hin]
  refine List.map_congr_left fun e he => if_congr ⟨fun heq => ?_, fun heq => heq ▸ rfl⟩ rfl rfl
  exact Keyed.eq_of_key h.ids he hd heq

theorem mem_rewrite (h : s.definitions.Keyed) (hd : d ∈ s.definitions.entries) :
    e ∈ (s.rewrite d formals rhs).definitions.entries ↔
      (e ∈ s.definitions.entries ∧ e ≠ d) ∨ e = d.rewrite formals rhs := by
  rw [entries_rewrite h hd, List.mem_map]
  constructor
  · rintro ⟨f, hf, rfl⟩
    by_cases hfd : f = d
    · exact Or.inr (if_pos hfd)
    · rw [if_neg hfd]
      exact Or.inl ⟨hf, hfd⟩
  · rintro (⟨he, hne⟩ | rfl)
    · exact ⟨e, he, if_neg hne⟩
    · exact ⟨d, hd, if_pos rfl⟩

theorem map_rewrite {α : Type} {g : Definition → α} (h : s.definitions.Keyed)
    (hd : d ∈ s.definitions.entries)
    (hg : g (d.rewrite formals rhs) = g d) :
    (s.rewrite d formals rhs).definitions.entries.map g = s.definitions.entries.map g := by
  rw [entries_rewrite h hd, List.map_map]
  refine List.map_congr_left fun e _ => ?_
  by_cases he : e = d
  · rw [Function.comp_apply, if_pos he, hg, he]
  · rw [Function.comp_apply, if_neg he]

theorem names_rewrite (h : s.definitions.Keyed) (hd : d ∈ s.definitions.entries) :
    (s.rewrite d formals rhs).definitions.names = s.definitions.names := by
  have hnames (b : DefinitionBook) : b.names =
      ((b.entries.map fun e => (e.isAnonymous, e.name)).filter fun x => !x.1).map Prod.snd := by
    rw [List.filter_map, List.map_map]
    rfl
  rw [hnames, hnames, map_rewrite h hd]
  rfl

theorem Linked.rewrite (h : s.Linked) (hd : d ∈ s.definitions.entries) :
    (s.rewrite d formals rhs).Linked where
  definitions := {
    names := names_rewrite h.definitions hd ▸ h.definitions.names
    ids := by
      rw [map_rewrite h.definitions hd]
      · exact h.definitions.ids
      · rfl
    issued e he := by
      rcases (mem_rewrite h.definitions hd).mp he with ⟨he, -⟩ | rfl
      · exact h.definitions.issued e he
      · exact h.definitions.issued d hd }
  spelled := names_rewrite h.definitions hd ▸ h.spelled
  graph := by
    have hnodes :
        (s.rewrite d formals rhs).definitions.entries.map (fun e => (e.node, e.references)) =
        s.definitions.entries.map fun e => (e.node, e.references) :=
          map_rewrite h.definitions hd rfl
    exact h.graph.trans hnodes.symm
  acyclic := h.acyclic

theorem lookup?_rewrite (h : s.definitions.Keyed) (hd : s.definitions.lookup? key = some d) :
    (s.rewrite d formals rhs).definitions.lookup? key = some (d.rewrite formals rhs) := by
  have hentries : (s.rewrite d formals rhs).definitions.entries = _ :=
    entries_rewrite h (DefinitionBook.mem_of_lookup? hd)
  have hfind {P : Definition → Bool} (hP : P (d.rewrite formals rhs) = P d) :
      (s.rewrite d formals rhs).definitions.entries.find? P =
        (s.definitions.entries.find? P).map fun e => if e =
          d then d.rewrite formals rhs else e := by
    rw [hentries, List.find?_map]
    congr 2
    funext e
    by_cases he : e = d
    · rw [Function.comp_apply, if_pos he, hP, he]
    · rw [Function.comp_apply, if_neg he]
  unfold DefinitionBook.lookup? DefinitionBook.find? DefinitionBook.get? at hd ⊢
  rw [hfind rfl, hfind rfl, ← Option.map_or, hd]
  simp

theorem Linked.function?_rewrite (h : s.Linked) (hd : d ∈ s.definitions.entries)
    (hname : name ≠ d.name) :
    (s.rewrite d formals rhs).repertoire.function? name = s.repertoire.function? name := by
  have hmem (f : Definition) (hf : f.name = name) :
      f ∈ (s.rewrite d formals rhs).definitions.entries ↔ f ∈ s.definitions.entries := by
    rw [mem_rewrite h.definitions hd]
    constructor
    · rintro (hf | rfl)
      · exact hf.1
      · exact absurd hf.symm hname
    · refine fun hin => Or.inl ⟨hin, ?_⟩
      rintro rfl
      exact hname hf.symm
  refine Option.ext fun ⟨fs, r⟩ => ?_
  rw [(h.rewrite hd).function?_eq_some, h.function?_eq_some]
  constructor
  · rintro ⟨f, hf, hnamed, hfname, hrest⟩
    exact ⟨f, (hmem f hfname).mp hf, hnamed, hfname, hrest⟩
  · rintro ⟨f, hf, hnamed, hfname, hrest⟩
    exact ⟨f, (hmem f hfname).mpr hf, hnamed, hfname, hrest⟩

/-- Nothing that evaluation goes into from a definition goes into the definition itself. -/
theorem Sound.target?_rewrite (h : s.Sound) (hd : d ∈ s.definitions.entries)
    (hnamed : d.isAnonymous = false)
    (hformals : d.formals ≠ []) (hformals' : formals ≠ []) (he : e ∈ s.definitions.entries)
    (hreach : s.Reaches d e)
    {k : Formula.Token} (hk : k ∈ Formula.tokens s.reading.lexicon s.definitions.names e.rhs) :
    (s.rewrite d formals rhs).repertoire.target? k = s.repertoire.target? k := by
  have hd' : d.rewrite formals rhs ∈ (s.rewrite d formals rhs).definitions.entries :=
    (mem_rewrite h.definitions hd).mpr (Or.inr rfl)
  by_cases hname : k.text = d.name
  · cases hkind : k.kind with
    | func =>
      have hcall := h.mem_calls he hk hkind hd hnamed hname.symm
      have href : s.graph.Refers e.node d.node := by
        rw [node_of_not_isAnonymous hnamed, ← hname]
        exact h.refers he (List.mem_append_right _ hcall)
      exact absurd (TransGen.tail' hreach href) (h.acyclic d.node)
    | atom =>
      have hold : s.repertoire.function? k.text = some (d.formals, d.rhs) :=
        h.function?_eq_some.mpr ⟨d, hd, hnamed, hname.symm, rfl, rfl⟩
      have hnew : (s.rewrite d formals rhs).repertoire.function? k.text = some (formals, rhs) :=
        (h.rewrite hd).function?_eq_some.mpr ⟨_, hd', hnamed, hname.symm, rfl, rfl⟩
      have hnone (fs : List Name) (r : Text) (hfs : fs ≠ []) :
          Option.filter (fun f : List Name × Text => f.1.isEmpty) (some (fs, r)) = none :=
        Option.filter_eq_none_iff.mpr fun f hf => by simpa [← Option.some.inj hf] using hfs
      simp only [Repertoire.target?, hkind, hold, hnew, hnone _ _ hformals, hnone _ _ hformals',
        ite_self]
    | _ => simp [Repertoire.target?, hkind]
  · simp only [Repertoire.target?, h.function?_rewrite hd hname]
    rfl

end Sheet

end Formulary
