import Formulary.Proofs.Graph.Cycle

/-! # The order of definitions

The order marks a node when it is begun, the search for a cycle when it is finished.
Placing nodes is told here without a bound as well: it ends on every graph, and where
the search finds no cycle both go through the same nodes. The order lists them as the
search finishes them: each node once, after every node it refers to.
-/

namespace Formulary.Graph

open Relation

/-- Names placed one after the other. A state is the nodes begun, the last first, and the order so
far; a node comes to the order when all its references are placed. -/
inductive Lays (g : Graph) :
    List Text × List Text → List Text → List Text × List Text → Prop where
  | nil {s : List Text × List Text} : Lays g s [] s
  | skips {x : Text} {rest : List Text} {s s' : List Text × List Text}
      (hskip : x ∈ s.1 ∨ g.contains x = false) (hrest : Lays g s rest s') :
      Lays g s (x :: rest) s'
  | places {x : Text} {rest : List Text} {s mid s' : List Text × List Text}
      (hfresh : x ∉ s.1) (hnode : g.contains x = true)
      (hrefs : Lays g (x :: s.1, s.2) (g.references x) mid)
      (hrest : Lays g (mid.1, mid.2 ++ [x]) rest s') : Lays g s (x :: rest) s'

/-- Nodes begun: each once. -/
def Marked (g : Graph) (begun : List Text) : Prop :=
  begun.Nodup ∧ ∀ x ∈ begun, g.contains x = true

variable {g : Graph} {x : Text} {names begun done path : List Text} {s s' t : List Text × List Text}

theorem Marked.cons (h : g.Marked begun) (hx : x ∉ begun) (hnode : g.contains x = true) :
    g.Marked (x :: begun) :=
  ⟨List.nodup_cons.mpr ⟨hx, h.1⟩, List.forall_mem_cons.mpr ⟨hnode, h.2⟩⟩

theorem Marked.length_le (h : g.Marked begun) : begun.length ≤ g.size := by
  have hsub : begun ⊆ g.keys := fun x hx => contains_iff.mp (h.2 x hx)
  simpa [size, keys] using (h.1.subperm hsub).length_le

namespace Lays

theorem unique (h : g.Lays s names s') (h' : g.Lays s names t) : s' = t := by
  induction h generalizing t with
  | nil => cases h'; rfl
  | skips hskip _ ih =>
    cases h' with
    | skips _ hrest => exact ih hrest
    | places hfresh hnode => simp [hfresh, hnode] at hskip
  | places hfresh hnode _ _ ih ihrest =>
    cases h' with
    | skips hskip => simp [hfresh, hnode] at hskip
    | places _ _ hrefs hrest =>
      cases ih hrefs
      exact ihrest hrest

theorem append {more : List Text} (h : g.Lays s names s') (hmore : g.Lays s' more t) :
    g.Lays s (names ++ more) t := by
  induction h with
  | nil => exact hmore
  | skips hskip _ ih => exact .skips hskip (ih hmore)
  | places hfresh hnode hrefs _ _ ih => exact .places hfresh hnode hrefs (ih hmore)

/-- A node once begun stays begun. -/
theorem marked (h : g.Lays s names s') (hs : g.Marked s.1) :
    g.Marked s'.1 ∧ s.1.length ≤ s'.1.length := by
  induction h with
  | nil => exact ⟨hs, le_rfl⟩
  | skips _ _ ih => exact ih hs
  | places hfresh hnode _ _ ih ihrest =>
    obtain ⟨hmid, hgrown⟩ := ih (hs.cons hfresh hnode)
    obtain ⟨hlast, hgrown'⟩ := ihrest hmid
    exact ⟨hlast, (Nat.le_of_succ_le hgrown).trans hgrown'⟩

/-- Names that are each placed, whatever was begun meanwhile, are placed one after the other. -/
theorem foldl {step : List Text × List Text → Text → List Text × List Text} {n : Nat}
    (hstep : ∀ x ∈ names, ∀ s, g.Marked s.1 → n ≤ s.1.length → g.Lays s [x] (step s x))
    (hs : g.Marked s.1) (hn : n ≤ s.1.length) : g.Lays s names (names.foldl step s) := by
  induction names generalizing s with
  | nil => exact .nil
  | cons x rest ih =>
    have hfirst := hstep x List.mem_cons_self s hs hn
    obtain ⟨hmid, hgrown⟩ := hfirst.marked hs
    exact hfirst.append (ih (fun y hy => hstep y (List.mem_cons_of_mem x hy)) hmid (by omega))

end Lays

/-- Nodes begun are distinct, so they leave the bound on the depth no room to be reached. -/
theorem place_lays {fuel : Nat} (hfuel : g.size < s.1.length + fuel) (hs : g.Marked s.1) :
    g.Lays s [x] (g.place fuel s x) := by
  induction fuel generalizing s x with
  | zero =>
    have := hs.length_le
    omega
  | succ fuel ih =>
    unfold place
    by_cases hskip : (s.1.contains x || !g.contains x) = true
    · rw [if_pos hskip]
      exact .skips (by simpa using hskip) .nil
    rw [if_neg hskip]
    simp only [Bool.or_eq_true, Bool.not_eq_true', not_or, Bool.not_eq_false,
      List.contains_iff_mem] at hskip
    obtain ⟨hfresh, hnode⟩ := hskip
    have hrefs : g.Lays (x :: s.1, s.2) (g.references x)
        ((g.references x).foldl (fun s y => g.place fuel s y) (x :: s.1, s.2)) := by
      apply Lays.foldl (n := s.1.length + 1)
      · intro y _ s' hs' hn
        exact ih (by omega) hs'
      · exact hs.cons hfresh hnode
      · simp
    exact .places hfresh hnode hrefs .nil

/-- All nodes placed, as the order places them. -/
def placeAll (g : Graph) : List Text × List Text :=
  g.keys.foldl (fun s x => g.place (g.size + 1) s x) ([], [])

theorem placeAll_lays (g : Graph) : g.Lays ([], []) g.keys g.placeAll :=
  Lays.foldl (n := 0) (fun _ _ _ hs _ => place_lays (by omega) hs) ⟨List.nodup_nil, by simp⟩ le_rfl

/-! ### Placing beside the search for a cycle -/

/-- Nodes begun are the finished ones and those under way. -/
def Begun (begun done path : List Text) : Prop := ∀ y, y ∈ begun ↔ y ∈ done ∨ y ∈ path

/-- Where the search meets no cycle, a name under way is not met again. So placing skips what the
search skips, and it appends a node when the search finishes it. -/
theorem Ends.lays {more : List Text} (h : g.Ends path done names (.ok more))
    (hb : Begun begun done path) :
    ∃ begun', g.Lays (begun, done.reverse) names (begun', more.reverse) ∧
      Begun begun' more path := by
  generalize hresult : (.ok more : Except (List Text) (List Text)) = result at h
  induction h generalizing begun more with
  | nil =>
    obtain rfl := Except.ok.inj hresult
    exact ⟨begun, .nil, hb⟩
  | closes => cases hresult
  | fails => cases hresult
  | skips hx hskip _ ih =>
    obtain ⟨begun', hlays, hb'⟩ := ih hb hresult
    exact ⟨begun', .skips (hskip.imp_left fun h => (hb _).mpr (Or.inl h)) hlays, hb'⟩
  | @finishes x path done rest mid _ hx hfresh hnode _ _ ih ihrest =>
    have hentered : Begun (x :: begun) done (x :: path) := by
      intro y
      simp only [List.mem_cons, hb y]
      tauto
    obtain ⟨begun₁, hrefs, hb₁⟩ := ih hentered rfl
    have hleft : Begun begun₁ (x :: mid) path := by
      intro y
      simp only [hb₁ y, List.mem_cons]
      tauto
    obtain ⟨begun₂, hrest, hb₂⟩ := ihrest hleft hresult
    rw [List.reverse_cons] at hrest
    exact ⟨begun₂, .places (by simp [hb x, hx, hfresh]) hnode hrefs hrest, hb₂⟩

theorem order_eq (h : g.walkAll = .ok done) : g.order = .ok done.reverse := by
  have hends := g.walkAll_ends
  rw [h] at hends
  have hbegun : Begun [] [] [] := by simp [Begun]
  obtain ⟨begun, hlays, -⟩ := hends.lays hbegun
  have hplaced : g.placeAll = (begun, done.reverse) := g.placeAll_lays.unique hlays
  have hcycle : g.cycle? = none := by rw [cycle?_eq, h]
  unfold order
  rw [hcycle]
  change Except.ok g.placeAll.2 = _
  rw [hplaced]

/-- Without cycles there is an order: every node once, after all nodes it refers to. -/
theorem Acyclic.order (h : g.Acyclic) : ∃ names, g.order = .ok names ∧ names.Nodup ∧
    (∀ x, x ∈ names ↔ g.contains x = true) ∧
    ∀ x y, g.Refers x y → g.contains y = true → [y, x].Sublist names := by
  have ho := g.walkAll_outcome
  cases hw : g.walkAll with
  | error c =>
    rw [hw] at ho
    obtain ⟨x, hx⟩ := IsCycle.transGen ho
    exact absurd hx (h x)
  | ok done =>
    rw [hw] at ho
    obtain ⟨hdone, -, -, hin⟩ := ho
    refine ⟨done.reverse, order_eq hw, List.nodup_reverse.mpr hdone.nodup, fun x => ?_,
      fun x y hr hy => ?_⟩
    · rw [List.mem_reverse]
      exact ⟨hdone.contains, fun hx => hin x (contains_iff.mp hx) hx⟩
    · have hx := contains_of_refers hr
      exact (hdone.sublist (hin x (contains_iff.mp hx) hx) hr hy).reverse

/-! ## Orders of graphs

A graph has an order just if no chain of references is closed, and only its nodes and
the references between them matter to it: without the references to names that have no
node, the search meets the same nodes in the same turn.
-/

/-- The graph without references to names that have no node. -/
def trimmed (g : Graph) : Graph := ⟨g.nodes.map fun n => (n.1, n.2.filter g.contains)⟩

variable {result : Except (List Text) (List Text)}

theorem keys_trimmed : g.trimmed.keys = g.keys := by
  rw [keys, trimmed, List.map_map]
  rfl

theorem contains_trimmed : g.trimmed.contains x = g.contains x := by
  rw [Bool.eq_iff_iff, contains_iff, contains_iff, keys_trimmed]

theorem references_trimmed : g.trimmed.references x = (g.references x).filter g.contains := by
  unfold references trimmed
  rw [List.find?_map]
  simp only [Function.comp_def]
  cases g.nodes.find? fun n => n.1 == x <;> rfl

theorem filter_keys (g : Graph) : g.keys.filter g.contains = g.keys :=
  List.filter_eq_self.mpr fun _ hx => contains_iff.mpr hx

/-- The path holds nodes only, so a name without a node is skipped wherever it is met. -/
theorem Ends.trimmed (h : g.Ends path done names result)
    (hpath : ∀ p ∈ path, g.contains p = true) :
    g.trimmed.Ends path done (names.filter g.contains) result := by
  induction h with
  | nil => exact .nil
  | closes hx =>
    -- A name that closes a cycle is on the path, so it is not filtered out.
    rw [List.filter_cons_of_pos (hpath _ hx)]
    exact .closes hx
  | @skips x path done rest result hx hskip _ ih =>
    cases hnode : g.contains x with
    | false =>
      rw [List.filter_cons_of_neg (by simp [hnode])]
      exact ih hpath
    | true =>
      rw [List.filter_cons_of_pos hnode]
      exact .skips hx (hskip.imp_right fun h => contains_trimmed.trans h) (ih hpath)
  | @fails x path done rest c hx hfresh hnode _ ih =>
    have hrefs := ih (List.forall_mem_cons.mpr ⟨hnode, hpath⟩)
    rw [← references_trimmed] at hrefs
    rw [List.filter_cons_of_pos hnode]
    exact .fails hx hfresh (contains_trimmed.trans hnode) hrefs
  | @finishes x path done rest mid result hx hfresh hnode _ _ ih ihrest =>
    have hrefs := ih (List.forall_mem_cons.mpr ⟨hnode, hpath⟩)
    rw [← references_trimmed] at hrefs
    rw [List.filter_cons_of_pos hnode]
    exact .finishes hx hfresh (contains_trimmed.trans hnode) hrefs (ihrest hpath)

theorem walkAll_trimmed (g : Graph) : g.trimmed.walkAll = g.walkAll := by
  have hends := g.walkAll_ends.trimmed (by simp)
  rw [filter_keys, ← keys_trimmed] at hends
  exact g.trimmed.walkAll_ends.unique hends

/-- The search decides what becomes of the order. -/
theorem order_eq_walkAll (g : Graph) : g.order = g.walkAll.map List.reverse := by
  cases hw : g.walkAll with
  | ok done => exact order_eq hw
  | error c =>
    have hcycle : g.cycle? = some c := by rw [cycle?_eq, hw]
    rw [order, hcycle]
    rfl

theorem order_eq_error {c : List Text} : g.order = .error c ↔ g.cycle? = some c := by
  rw [order_eq_walkAll, cycle?_eq]
  cases g.walkAll <;> simp [Except.map]

theorem Acyclic.order_eq_placeAll (h : g.Acyclic) : g.order = .ok g.placeAll.2 := by
  rw [Graph.order, cycle?_eq_none_iff.mpr h]
  rfl

theorem exists_isCycle_iff : (∃ c, g.IsCycle c) ↔ ¬ g.Acyclic := by
  constructor
  · rintro ⟨c, hc⟩ hacyclic
    obtain ⟨x, hx⟩ := hc.transGen
    exact hacyclic x hx
  · intro h
    cases hc : g.cycle? with
    | none => exact absurd (cycle?_eq_none_iff.mp hc) h
    | some c => exact ⟨c, isCycle_of_cycle? hc⟩

/-- Every graph gets its order or a cycle, and a cycle just if it has one. An order has each node
once, after all nodes it refers to, and is what placing all nodes ends with. References to names
without a node have no part in it. -/
theorem order_sorts (g : Graph) :
    ((∃ c, g.order = .error c) ↔ ∃ c, g.IsCycle c) ∧
    (∃! s, g.Lays ([], []) g.keys s) ∧
    (match g.order with
      | .error c => g.IsCycle c ∧ ∀ x ∈ c, g.contains x = true
      | .ok names => names.Nodup ∧ (∀ x, x ∈ names ↔ g.contains x = true) ∧
          (∀ x y, g.Refers x y → g.contains y = true → [y, x].Sublist names) ∧
          ∃ begun, g.Lays ([], []) g.keys (begun, names)) ∧
    g.trimmed.order = g.order := by
  refine ⟨?_, ⟨g.placeAll, g.placeAll_lays, fun s hs => hs.unique g.placeAll_lays⟩, ?_, ?_⟩
  · rw [exists_isCycle_iff, ← cycle?_eq_none_iff, ← ne_eq, Option.ne_none_iff_exists']
    exact exists_congr fun c => order_eq_error
  · cases ho : g.order with
    | error c =>
      have hc := isCycle_of_cycle? (order_eq_error.mp ho)
      exact ⟨hc, fun x hx => hc.contains hx⟩
    | ok names =>
      have hacyclic : g.Acyclic := by
        rw [← cycle?_eq_none_iff, Option.eq_none_iff_forall_ne_some]
        intro c hc
        rw [order_eq_error.mpr hc] at ho
        cases ho
      obtain ⟨names', hnames, hnodup, hmem, hbefore⟩ := hacyclic.order
      obtain rfl : names = names' := by simpa [ho] using hnames
      obtain rfl : names = g.placeAll.2 := Except.ok.inj (ho.symm.trans hacyclic.order_eq_placeAll)
      exact ⟨hnodup, hmem, hbefore, g.placeAll.1, g.placeAll_lays⟩
  · rw [order_eq_walkAll, order_eq_walkAll, walkAll_trimmed]

end Formulary.Graph
