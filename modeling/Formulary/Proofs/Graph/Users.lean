import Mathlib.Data.List.Perm.Subperm
import Formulary.Proofs.Graph.Path
import Formulary.Proofs.Text.Distinct

/-! # All users of a name

The search for users takes one pending name at a time. Each node becomes pending at
most once, so the search ends on every graph, whichever names it takes first, and the
bound on the names looked at is never reached. What it ends with is closed under users.
-/

namespace Formulary.Graph

open Relation

variable {g : Graph} {x y : Text} {found pending : List Text} {fuel : Nat}
  {s s' : List Text × List Text}

theorem mem_users_iff (hk : g.keys.Nodup) : y ∈ g.users x ↔ g.Refers y x := by
  simp only [users, List.mem_map, List.mem_filter, List.contains_iff_mem]
  constructor
  · rintro ⟨⟨z, refs⟩, ⟨hz, hx⟩, rfl⟩
    rw [Refers, references_of_mem hk hz]
    exact hx
  · intro h
    obtain ⟨⟨z, refs⟩, hz, rfl⟩ := List.mem_map.mp (contains_iff.mp (contains_of_refers h))
    rw [Refers, references_of_mem hk hz] at h
    exact ⟨(z, refs), ⟨hz, h⟩, rfl⟩

/-- The users of a name that are not found yet. -/
def freshUsers (g : Graph) (found : List Text) (x : Text) : List Text :=
  (Text.dedup (g.users x)).filter fun n => !found.contains n

theorem mem_freshUsers : y ∈ g.freshUsers found x ↔ y ∈ g.users x ∧ y ∉ found := by
  simp [freshUsers]

theorem nodup_freshUsers : (g.freshUsers found x).Nodup := (Text.nodup_dedup _).filter _

theorem growUsers_cons : g.growUsers (fuel + 1) found (x :: pending) =
    g.growUsers fuel (found ++ g.freshUsers found x) (g.freshUsers found x ++ pending) := rfl

/-! ### One turn of the search -/

/-- A turn of the search, from what is found and what is pending: some pending name is taken, and
its users that are new are found and become pending, in any order. -/
inductive Turn (g : Graph) : List Text × List Text → List Text × List Text → Prop where
  | take {found before after pending : List Text} {x : Text}
      (hp : pending.Perm (g.freshUsers found x ++ (before ++ after))) :
      Turn g (found, before ++ x :: after) (found ++ g.freshUsers found x, pending)

theorem Turn.front : g.Turn (found, x :: pending)
    (found ++ g.freshUsers found x, g.freshUsers found x ++ pending) :=
  @Turn.take g found [] pending _ x (.refl _)

/-- The nodes that are not found yet. -/
def unfound (g : Graph) (found : List Text) : List Text :=
  g.keys.filter fun n => !found.contains n

theorem length_unfound :
    (g.unfound (found ++ g.freshUsers found x)).length + (g.freshUsers found x).length ≤
      (g.unfound found).length := by
  have hsub : (g.freshUsers found x) ⊆ (g.unfound found).filter fun n =>
      (g.freshUsers found x).contains n := by
    intro n hn
    obtain ⟨huser, hnot⟩ := mem_freshUsers.mp hn
    obtain ⟨m, hm, rfl⟩ := List.mem_map.mp huser
    have hkey : m.1 ∈ g.keys := List.mem_map_of_mem (List.mem_filter.mp hm).1
    simp [unfound, hkey, hnot, hn]
  have hlength := (nodup_freshUsers.subperm hsub).length_le
  have hsplit := List.length_eq_length_filter_add (l := g.unfound found) fun n =>
    (g.freshUsers found x).contains n
  have hrest : g.unfound (found ++ g.freshUsers found x) = (g.unfound found).filter fun n =>
      !(g.freshUsers found x).contains n := by
    simp [unfound, List.filter_filter, Bool.and_comm]
  rw [hrest]
  omega

/-- At most so many turns are left. -/
def turnsLeft (g : Graph) (s : List Text × List Text) : Nat := s.2.length + (g.unfound s.1).length

/-- Every turn takes one name, and each name that it adds is one that was not found before. -/
theorem Turn.turnsLeft_lt (h : g.Turn s s') : g.turnsLeft s' < g.turnsLeft s := by
  cases h with
  | @take found before after pending x hp =>
    have hnew : (g.unfound (found ++ g.freshUsers found x)).length +
        (g.freshUsers found x).length ≤ (g.unfound found).length := length_unfound
    have hlength := hp.length_eq
    simp only [turnsLeft, List.length_append, List.length_cons] at hlength ⊢
    omega

theorem wellFounded_turn (g : Graph) : WellFounded fun s' s => g.Turn s s' :=
  Subrelation.wf Turn.turnsLeft_lt (measure g.turnsLeft).wf

/-- Where something is pending, the search goes on. -/
theorem pending_eq_nil (h : ∀ s', ¬ g.Turn (found, pending) s') : pending = [] := by
  cases pending with
  | nil => rfl
  | cons x pending => exact absurd .front (h _)

/-- With a bound that allows for all turns left, the search runs to its end. -/
theorem growUsers_turns (hfuel : g.turnsLeft (found, pending) ≤ fuel) :
    ReflTransGen g.Turn (found, pending) (g.growUsers fuel found pending, []) := by
  induction fuel generalizing found pending with
  | zero =>
    have hnone := Nat.add_eq_zero_iff.mp (Nat.le_zero.mp hfuel)
    obtain rfl := List.length_eq_zero_iff.mp hnone.1
    exact .refl
  | succ fuel ih =>
    cases pending with
    | nil => exact .refl
    | cons x pending =>
      have hturn : g.Turn (found, x :: pending)
          (found ++ g.freshUsers found x, g.freshUsers found x ++ pending) := .front
      have hless := hturn.turnsLeft_lt
      rw [growUsers_cons]
      exact .head hturn (ih (by omega))

theorem allUsers_turns (g : Graph) (x : Text) :
    ReflTransGen g.Turn ([], [x]) (g.allUsers x, []) := by
  have hkeys : (g.unfound []).length ≤ g.size := by
    have hsize : g.keys.length = g.size := List.length_map _
    exact hsize ▸ List.length_filter_le _ _
  apply growUsers_turns
  simp only [turnsLeft, List.length_singleton]
  omega

/-! ### What the search finds -/

/-- The state of a search for the users of `x`: what is found leads to `x`, and the users of a name
that was taken are found. -/
structure Seeks (g : Graph) (x : Text) (s : List Text × List Text) : Prop where
  nodup : s.1.Nodup
  leads : ∀ y ∈ s.1, TransGen g.Refers y x
  pending : ∀ y ∈ s.2, y = x ∨ y ∈ s.1
  taken : ∀ y, y = x ∨ y ∈ s.1 → y ∉ s.2 → ∀ z ∈ g.users y, z ∈ s.1

namespace Seeks

theorem start (g : Graph) (x : Text) : g.Seeks x ([], [x]) := by
  refine ⟨List.nodup_nil, by simp, by simp, fun y hy hnot => ?_⟩
  simp_all

theorem turn (hk : g.keys.Nodup) (h : g.Seeks x s) (hturn : g.Turn s s') : g.Seeks x s' := by
  cases hturn with
  | @take found before after pending w hp =>
    have hstart : w = x ∨ w ∈ found := h.pending w (by simp)
    refine ⟨?_, fun y hy => ?_, fun y hy => ?_, fun y hy hnot z hz => ?_⟩
    · refine List.nodup_append'.mpr ⟨h.nodup, nodup_freshUsers, fun y hy hfresh => ?_⟩
      exact (mem_freshUsers.mp hfresh).2 hy
    · rcases List.mem_append.mp hy with hy | hy
      · exact h.leads y hy
      · have hr : g.Refers y w := (mem_users_iff hk).mp (mem_freshUsers.mp hy).1
        rcases hstart with rfl | hw
        · exact .single hr
        · exact .head hr (h.leads w hw)
    · rcases List.mem_append.mp (hp.mem_iff.mp hy) with hy | hy
      · exact Or.inr (List.mem_append_right found hy)
      · refine (h.pending y ?_).imp_right (List.mem_append_left _)
        rcases List.mem_append.mp hy with hy | hy <;> simp [hy]
    · have hout : y ∉ g.freshUsers found w ++ (before ++ after) :=
        fun hy => hnot (hp.mem_iff.mpr hy)
      have hold : y = x ∨ y ∈ found := by
        simp only [List.mem_append] at hy hout
        tauto
      -- The users of a name taken earlier were found then; those of `w` are found in this turn.
      by_cases hz' : z ∈ found
      · exact List.mem_append_left _ hz'
      · by_cases hyw : y = w
        · subst hyw
          exact List.mem_append_right _ (mem_freshUsers.mpr ⟨hz, hz'⟩)
        · have hnot' : y ∉ before ++ w :: after := by
            simp only [List.mem_append, List.mem_cons] at hout ⊢
            tauto
          exact absurd (h.taken y hold hnot' z hz) hz'

theorem run (hk : g.keys.Nodup) (h : ReflTransGen g.Turn ([], [x]) s) : g.Seeks x s := by
  induction h with
  | refl => exact start g x
  | tail _ hturn ih => exact ih.turn hk hturn

/-- With nothing pending, what is found is closed under users. -/
theorem mem_iff (hk : g.keys.Nodup) (h : g.Seeks x (found, [])) :
    y ∈ found ↔ TransGen g.Refers y x := by
  refine ⟨h.leads y, fun hr => ?_⟩
  induction hr using TransGen.head_induction_on with
  | single hr => exact h.taken x (Or.inl rfl) (by simp) _ ((mem_users_iff hk).mpr hr)
  | head hr _ ih => exact h.taken _ (Or.inr ih) (by simp) _ ((mem_users_iff hk).mpr hr)

end Seeks

/-- The users of a name are the nodes that a chain of references leads from to the name. -/
theorem mem_allUsers_iff (hk : g.keys.Nodup) : y ∈ g.allUsers x ↔ TransGen g.Refers y x :=
  (Seeks.run hk (g.allUsers_turns x)).mem_iff hk

/-- Whichever names it takes first, the search for users ends, and what it has found then are the
users of the name: each once, the nodes that a chain of references leads from to the name, all
names on the way being nodes. The name itself is among them just if it is on a cycle. -/
theorem allUsers_decides (g : Graph) (hk : g.keys.Nodup) (x : Text) :
    (WellFounded fun s' s => g.Turn s s') ∧
    ReflTransGen g.Turn ([], [x]) (g.allUsers x, []) ∧
    (∀ s, ReflTransGen g.Turn ([], [x]) s → (∀ s', ¬ g.Turn s s') →
      s.2 = [] ∧ ∀ y, y ∈ s.1 ↔ y ∈ g.allUsers x) ∧
    (g.allUsers x).Nodup ∧
    (∀ y, y ∈ g.allUsers x ↔
      ∃ inner, (y :: (inner ++ [x])).IsChain g.Refers ∧ ∀ z ∈ y :: inner, g.contains z = true) ∧
    (x ∈ g.allUsers x ↔ ∃ c, g.IsCycle c ∧ x ∈ c) := by
  refine ⟨g.wellFounded_turn, g.allUsers_turns x, ?_, (Seeks.run hk (g.allUsers_turns x)).nodup,
    fun y => ?_, ?_⟩
  · rintro ⟨found, pending⟩ hrun hstop
    obtain rfl := pending_eq_nil hstop
    refine ⟨rfl, fun y => ?_⟩
    rw [mem_allUsers_iff hk]
    exact (Seeks.run hk hrun).mem_iff hk
  · rw [mem_allUsers_iff hk, transGen_iff_chain]
  · rw [mem_allUsers_iff hk, exists_mem_isCycle_iff]

/-- `a` and `b` use each other and `c` uses both; `d` has no node, and only `c` refers to it. -/
theorem allUsers_decides_for_loop :
    let g : Graph := ⟨[(text "a", [text "b"]), (text "b", [text "a"]),
      (text "c", [text "d", text "b"])]⟩
    g.allUsers (text "a") = [text "b", text "a", text "c"] ∧
      (∃ c, g.IsCycle c ∧ text "a" ∈ c) ∧
      (∃ inner, (text "c" :: (inner ++ [text "a"])).IsChain g.Refers ∧
        ∀ z ∈ text "c" :: inner, g.contains z = true) ∧
      g.allUsers (text "d") = [text "c"] ∧ ¬ ∃ c, g.IsCycle c ∧ text "d" ∈ c := by
  intro g
  obtain ⟨-, -, -, -, hchain, hcycle⟩ := allUsers_decides g (by decide +kernel) (text "a")
  obtain ⟨-, -, -, -, -, hnone⟩ := allUsers_decides g (by decide +kernel) (text "d")
  have husers : g.allUsers (text "a") = [text "b", text "a", text "c"] := by decide +kernel
  have huser : g.allUsers (text "d") = [text "c"] := by decide +kernel
  refine ⟨husers, hcycle.mp ?_, (hchain _).mp ?_, huser, fun h => ?_⟩
  · simp [husers]
  · simp [husers]
  · have hmem := hnone.mpr h
    rw [huser] at hmem
    exact absurd hmem (by decide)

end Formulary.Graph
