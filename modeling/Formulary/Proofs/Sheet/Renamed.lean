import Mathlib.Algebra.Group.End
import Mathlib.Logic.Equiv.Basic
import Formulary.Proofs.Binding.Beside
import Formulary.Proofs.Sheet.Analysed
import Formulary.Proofs.Sheet.Taken

/-! # Definitions under other ids

Names and references are spelled as symbols and ids are not, so a definition keeps
all but its id and its node when ids are renamed. A definition taken after another
is the one that would be taken before it, with the two ids changed round.
-/

namespace Formulary

/-- A definition under another id. -/
def Definition.renamed (rename : Text → Text) (d : Definition) : Definition :=
  { d with id := rename d.id }

/-- Names and references of the definition are spelled as symbols. -/
structure Definition.IsSpelled (d : Definition) : Prop where
  name : d.isAnonymous = false → Spelled d.name
  references : ∀ y ∈ d.references, Spelled y

theorem Definition.node_renamed {rename : Text → Text} {d : Definition}
    (hd : d.IsSpelled) (hrename : ∀ x, Spelled x → rename x = x) :
    (d.renamed rename).node = rename d.node := by
  cases hk : d.isAnonymous with
  | true =>
    rw [Sheet.node_of_isAnonymous hk]
    exact Sheet.node_of_isAnonymous hk
  | false =>
    rw [Sheet.node_of_not_isAnonymous hk, hrename _ (hd.name hk)]
    exact Sheet.node_of_not_isAnonymous hk

theorem Analysed.isSpelled {r : Reading} {arities : Formula.Arities} {d : Definition}
    (h : Analysed r arities d) (hname : d.isAnonymous = false → Spelled d.name)
    (harities : ∀ n ∈ arities.names, Spelled n) : d.IsSpelled := by
  refine ⟨hname, fun y hy => ?_⟩
  rcases List.mem_append.mp hy with hy | hy
  · rw [← h.dependencies] at hy
    exact Formula.spelled_of_mem_freeSymbols hy
  · exact harities y (h.mem_names hy)

namespace DefinitionBook

theorem idFor_true_ne (m n : Nat) : idFor true m ≠ idFor false n := by
  intro h
  exact absurd (congrArg List.head? h) (by simp [idFor, text])

/-- Two ids that are next to each other, of functions or of plots, change places. -/
def exchangeIds (n : Nat) : Equiv.Perm Text :=
  Equiv.swap (idFor true n) (idFor true (n + 1)) * Equiv.swap (idFor false n) (idFor false (n + 1))

theorem exchangeIds_of_ne {x : Text} {n : Nat}
    (hx : ∀ k, x ≠ idFor k n ∧ x ≠ idFor k (n + 1)) : exchangeIds n x = x := by
  rw [exchangeIds, Equiv.Perm.mul_apply,
    Equiv.swap_apply_of_ne_of_ne (hx false).1 (hx false).2,
    Equiv.swap_apply_of_ne_of_ne (hx true).1 (hx true).2]

theorem exchangeIds_left (k : Bool) (n : Nat) : exchangeIds n (idFor k n) = idFor k (n + 1) := by
  rw [exchangeIds, Equiv.Perm.mul_apply]
  cases k with
  | false =>
    rw [Equiv.swap_apply_left, Equiv.swap_apply_of_ne_of_ne (idFor_true_ne _ _).symm
      (idFor_true_ne _ _).symm]
  | true =>
    rw [Equiv.swap_apply_of_ne_of_ne (idFor_true_ne _ _) (idFor_true_ne _ _),
      Equiv.swap_apply_left]

theorem exchangeIds_right (k : Bool) (n : Nat) : exchangeIds n (idFor k (n + 1)) = idFor k n := by
  rw [exchangeIds, Equiv.Perm.mul_apply]
  cases k with
  | false =>
    rw [Equiv.swap_apply_right, Equiv.swap_apply_of_ne_of_ne (idFor_true_ne _ _).symm
      (idFor_true_ne _ _).symm]
  | true =>
    rw [Equiv.swap_apply_of_ne_of_ne (idFor_true_ne _ _) (idFor_true_ne _ _),
      Equiv.swap_apply_right]

end DefinitionBook

namespace Sheet

open DefinitionBook (idFor exchangeIds exchangeIds_of_ne exchangeIds_left exchangeIds_right)

variable {s u : Sheet} {A B raw : Text} {p q : Plan} {live : LiveNames}

theorem Consistent.spelled_arities (h : s.Consistent) :
    ∀ n ∈ s.definitions.arities.names, Spelled n := by
  rw [h.definitions.names_arities]
  exact h.spelled

theorem Current.isSpelled (hc : s.Current) (h : s.Consistent) :
    ∀ d ∈ s.definitions.entries, d.IsSpelled := fun d hd =>
  (hc d hd).isSpelled (fun hk => h.spelled _ (DefinitionBook.mem_names.mpr ⟨d, hd, hk, rfl⟩))
    h.spelled_arities

theorem Plans.isSpelled (hp : s.Plans raw false p) (h : s.Consistent) :
    ∀ d ∈ s.definitionsFor raw p, d.IsSpelled := by
  intro d hd
  unfold definitionsFor at hd
  split at hd
  · cases hd
  case isFalse hk =>
    obtain rfl := List.mem_singleton.mp hd
    refine (h.analysed_definitionFor hp hk).1.isSpelled (fun hnamed => ?_) h.spelled_arities
    rw [isAnonymous_definitionFor, decide_eq_false_iff_not] at hnamed
    exact spelled_head hp hnamed

/-- Definitions that stand in a sheet under other ids close no chain of references. -/
theorem Linked.acyclic_of_renamed {g : Graph} {ds : List Definition} {rename : Text → Text}
    (h : u.Linked) (hg : g.nodes = ds.map fun d => (d.node, d.references))
    (hrename : ∀ x, Spelled x → rename x = x)
    (hin : ∀ d ∈ ds, d.IsSpelled ∧ d.renamed rename ∈ u.definitions.entries) : g.Acyclic := by
  refine h.acyclic.of_rename rename (h.keys ▸ h.nodup_nodes) ?_ ?_
  · intro n hn
    rw [hg] at hn
    obtain ⟨d, hd, rfl⟩ := List.mem_map.mp hn
    obtain ⟨hspelled, hstands⟩ := hin d hd
    rw [h.graph, ← Definition.node_renamed hspelled hrename]
    exact List.mem_map.mpr ⟨_, hstands, rfl⟩
  · intro n hn y hy
    rw [hg] at hn
    obtain ⟨d, hd, rfl⟩ := List.mem_map.mp hn
    exact hrename y ((hin d hd).1.references y hy)

/-! ### Ids -/

/-- How the ids change when the plans are taken in the other order. -/
def swapIds (n : Nat) (p q : Plan) : Equiv.Perm Text :=
  if p.head.kind = .parameter ∨ q.head.kind = .parameter then 1 else exchangeIds n

theorem swapIds_comm (n : Nat) (p q : Plan) : swapIds n p q = swapIds n q p :=
  if_congr or_comm rfl rfl

theorem swapIds_of_ne {n : Nat} {x : Text} (hx : ∀ k, x ≠ idFor k n ∧ x ≠ idFor k (n + 1)) :
    swapIds n p q x = x := by
  unfold swapIds
  split
  · rfl
  · exact exchangeIds_of_ne hx

theorem swapIds_of_spelled (n : Nat) (p q : Plan) (x : Text) (hx : Spelled x) :
    swapIds n p q x = x :=
  swapIds_of_ne fun k => ⟨hx.ne_idFor k n, hx.ne_idFor k (n + 1)⟩

theorem Linked.renamed_entries (h : s.Linked) (p q : Plan) :
    s.definitions.entries.map (Definition.renamed (swapIds s.definitions.nextId p q)) =
      s.definitions.entries := by
  refine (List.map_congr_left fun d hd => ?_).trans (List.map_id _)
  obtain ⟨k, m, hm, hid⟩ := h.definitions.issued d hd
  have hkept : swapIds s.definitions.nextId p q d.id = d.id := by
    refine swapIds_of_ne fun k' => ⟨fun he => ?_, fun he => ?_⟩
    · have := DefinitionBook.idFor_inj (hid.symm.trans he)
      omega
    · have := DefinitionBook.idFor_inj (hid.symm.trans he)
      omega
  rw [Definition.renamed, hkept, id]

theorem Plans.calledNames (hp : s.Plans raw false p) :
    s.calledNames p.rhs = Text.dedup (p.calls.map Formula.Call.name) := by
  have hcalls := hp.planned.calls
  rw [contextFor_false] at hcalls
  rw [hcalls]
  rfl

/-- A plan next to other names in use becomes the same definition, but for its id. -/
theorem Plans.definitionFor_against (hp : s.Plans raw false p)
    (hp' : u.Plans raw false (p.against live)) : u.definitionFor (p.against live) raw =
      { s.definitionFor p raw with
        id := idFor (p.head.kind = .anonymous) u.definitions.nextId } := by
  have hcalls :
      u.calledNames p.rhs = s.calledNames p.rhs := hp'.calledNames.trans hp.calledNames.symm
  simp only [definitionFor, ← hcalls]
  rfl

/-- Taken after the other definition, a plan brings the renamed definition. -/
theorem Plans.renamed_definitionsFor (hp : s.Plans A false p)
    (hp' : u.Plans A false (p.against live))
    (hid : u.definitions.nextId = s.definitions.nextId + (s.definitionsFor B q).length) :
    (s.definitionsFor A p).map (Definition.renamed (swapIds s.definitions.nextId p q)) =
        u.definitionsFor A (p.against live) ∧
      (u.definitionsFor A (p.against live)).map
        (Definition.renamed (swapIds s.definitions.nextId p q)) = s.definitionsFor A p := by
  by_cases hk : p.head.kind = .parameter
  · have hk' : (p.against live).head.kind = .parameter := hk
    rw [definitionsFor, definitionsFor, if_pos hk, if_pos hk']
    exact ⟨rfl, rfl⟩
  · have hk' : (p.against live).head.kind ≠ .parameter := hk
    rw [definitionsFor, definitionsFor, if_neg hk, if_neg hk', hp.definitionFor_against hp']
    have hnew : (s.definitionFor p A).id =
        idFor (p.head.kind = .anonymous) s.definitions.nextId := rfl
    by_cases hq : q.head.kind = .parameter
    · have hsame : u.definitions.nextId = s.definitions.nextId := by
        rw [hid, definitionsFor, if_pos hq]
        rfl
      have hone : swapIds s.definitions.nextId p q = 1 := if_pos (Or.inr hq)
      rw [hsame, hone]
      exact ⟨rfl, rfl⟩
    · have hnext : u.definitions.nextId = s.definitions.nextId + 1 := by
        rw [hid, definitionsFor, if_neg hq]
        rfl
      have hexchange : swapIds s.definitions.nextId p q = exchangeIds s.definitions.nextId :=
        if_neg (by simp [hk, hq])
      simp only [List.map_cons, List.map_nil, Definition.renamed, hnext, hexchange, hnew,
        exchangeIds_left, exchangeIds_right]
      exact ⟨trivial, rfl⟩

end Sheet

end Formulary
