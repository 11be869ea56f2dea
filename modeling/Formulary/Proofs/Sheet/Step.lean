import Formulary.Proofs.Sheet.Entered
import Formulary.Sheet.Compute

/-! # Steps and runs

Every action of a sheet takes one of six steps. Four of them are those of entering
a text; the others delete what nothing refers to, or change what no reference is
about. An invariant of sheets is one that these steps keep.
-/

namespace Formulary.Sheet

variable {s t u : Sheet} {raw : Text} {redefine : Bool} {name : Name} {p : Plan} {d : Definition}

/-- What can be asked of a sheet. Computing leaves the sheet as it is. -/
inductive Action where
  | enter (raw : Text) (redefine : Bool)
  | delete (key : Text)
  | setValue (name : Name) (value : Double)
  | toggle (key : Text)
  | setVariable (key : Text) (axis : Name)
  | evaluate (key : Text) (args : List Double)
  | sample (key : Text) (lo hi : Double) (count : Int)

/-- The sheet after an action, whether it succeeds or not. -/
def perform (s : Sheet) : Action → Sheet
  | .enter raw redefine => (s.enter raw redefine).2
  | .delete key =>
    match s.delete key with
    | .ok (_, t) => t
    | .error _ => s
  | .setValue name value =>
    match s.setValue name value with
    | .ok t => t
    | .error _ => s
  | .toggle key => (s.toggle key).2
  | .setVariable key axis => (s.setVariable key axis).2
  | .evaluate .. => s
  | .sample .. => s

/-- The sheet after some actions. -/
def run (actions : List Action) (s : Sheet) : Sheet := actions.foldl perform s

/-- The same names with the same definitions, whatever their values and looks. -/
structure Alike (s t : Sheet) : Prop where
  reading : t.reading = s.reading
  keyed : t.parameters.Keyed
  names : t.parameters.names = s.parameters.names
  cores : t.definitions.cores = s.definitions.cores
  ids : s.definitions.nextId ≤ t.definitions.nextId
  graph : t.graph = s.graph

/-- Another definition refers to the node. -/
def UsedByOthers (s : Sheet) (node : Text) : Prop :=
  ∃ o ∈ s.definitions.entries, o.node ≠ node ∧ node ∈ o.references

/-- The steps that an action may take. -/
inductive Step (s : Sheet) : Action → Sheet → Prop
  | alike {a : Action} {t : Sheet} (h : Alike s t) : Step s a t
  | definitionDropped {key : Text} {d : Definition} (hd : d ∈ s.definitions.entries)
      (hfree : ¬ s.UsedByOthers d.node) : Step s (.delete key) (s.without d.node)
  | parameterDropped {name : Name} (hname : name ∈ s.parameters.names)
      (hfree : ¬ s.UsedByOthers name) :
      Step s (.delete name) { s with parameters := s.parameters.delete name }
  | functionLost {raw : Text} {redefine : Bool} {p : Plan} {t : Sheet}
      (hl : s.Loses raw redefine p) (h : SameContent (s.without p.head.name) t) :
      Step s (.enter raw redefine) t
  | parameterBound {raw : Text} {redefine : Bool} {p : Plan} {t : Sheet}
      (hp : s.Plans raw redefine p) (hb : s.BindsParameter p t) : Step s (.enter raw redefine) t
  | definitionBound {raw : Text} {redefine : Bool} {p : Plan} {t : Sheet}
      (hp : s.Plans raw redefine p) (hb : s.BindsDefinition raw p t) :
      Step s (.enter raw redefine) t

/-! ### Steps that change no reference -/

theorem Consistent.alike_self (h : s.Consistent) : Alike s s :=
  ⟨rfl, h.parameters, rfl, rfl, Nat.le_refl _, rfl⟩

theorem keyed_of_sameEntries {b b' : ParameterBook} (h : b.Keyed) (he : b'.entries = b.entries)
    (hid : b.nextId ≤ b'.nextId) : b'.Keyed :=
  h.of_sublist (he ▸ List.Sublist.refl _) hid

theorem SameContent.alike (h : SameContent s t) (hk : s.parameters.Keyed) : Alike s t where
  reading := h.reading
  keyed := keyed_of_sameEntries hk h.parameters h.parameterIds
  names := by rw [ParameterBook.names, h.parameters]; rfl
  cores := by rw [DefinitionBook.cores, h.definitions]; rfl
  ids := h.definitionIds
  graph := h.graph

/-- Changing one parameter, but for its name and id. -/
theorem alike_modify (hk : s.parameters.Keyed) (name : Name) {f : Parameter → Parameter}
    (hid : ∀ p, (f p).id = p.id) (hname : ∀ p, (f p).name = p.name) :
    Alike s { s with parameters := s.parameters.modify name f } :=
  ⟨rfl, hk.modify hid hname, hk.names_modify hid hname, rfl, Nat.le_refl _, rfl⟩

theorem alike_replace (hk : s.parameters.Keyed) (hl : s.Linked) {d' : Definition}
    (hd : d ∈ s.definitions.entries) (hc : d'.core = d.core) :
    Alike s { s with definitions := s.definitions.replace d' } :=
  ⟨rfl, hk, rfl, hl.definitions.cores_replace hd hc, Nat.le_refl _, rfl⟩

theorem Alike.trans (h : Alike s t) (h' : Alike t u) : Alike s u where
  reading := h'.reading.trans h.reading
  keyed := h'.keyed
  names := h'.names.trans h.names
  cores := h'.cores.trans h.cores
  ids := Nat.le_trans h.ids h'.ids
  graph := h'.graph.trans h.graph

theorem Consistent.alike_toggle (h : s.Consistent) (key : Text) : Alike s (s.toggle key).2 := by
  unfold toggle
  split
  · exact h.alike_self
  case h_2 hd => exact alike_replace h.parameters h.toLinked (DefinitionBook.mem_of_lookup? hd) rfl

theorem eq_modify_of_update {b b' : ParameterBook} {value : Double}
    (h : b.update name value = .ok b') : b' = b.modify name fun p => { p with value } := by
  obtain ⟨p, -, hp⟩ := ok_of_bind h
  split at hp
  · simp at hp
  · split at hp
    · exact (Except.ok.inj hp).symm
    · simp at hp

theorem Consistent.alike_setValue (h : s.Consistent) {value : Double}
    (ht : s.setValue name value = .ok t) : Alike s t := by
  obtain ⟨b, hb, rfl⟩ := ok_of_map ht
  rw [eq_modify_of_update hb]
  exact alike_modify h.parameters name (fun _ => rfl) fun _ => rfl

theorem alike_release (hk : s.parameters.Keyed) (name : Name) : Alike s (s.release name) := by
  have hself : Alike s s := ⟨rfl, hk, rfl, rfl, Nat.le_refl _, rfl⟩
  unfold release
  split
  · exact hself
  · split
    · exact hself
    · split
      · exact hself
      · exact alike_modify hk name (fun _ => rfl) fun _ => rfl

theorem Consistent.alike_setVariable (h : s.Consistent) (key : Text) (axis : Name) :
    Alike s (s.setVariable key axis).2 := by
  unfold setVariable
  split
  · exact h.alike_self
  case h_2 d hd =>
    dsimp only
    generalize (if d.formals.isEmpty then s.parameters.contains axis else d.formals.contains axis) =
      allowed
    have hb : ∀ b, (b = if d.formals.isEmpty then s.parameters.modify axis fun p =>
        { p with role := some Parameter.independentRole } else s.parameters) →
        b.Keyed ∧ b.names = s.parameters.names := by
      rintro b rfl
      split
      · exact ⟨h.parameters.modify (fun _ => rfl) fun _ => rfl,
          h.parameters.names_modify (fun _ => rfl) fun _ => rfl⟩
      · exact ⟨h.parameters, rfl⟩
    generalize (if d.formals.isEmpty then s.parameters.modify axis fun p =>
        { p with role := some Parameter.independentRole } else s.parameters) = b at hb ⊢
    obtain ⟨hkeyed, hnames⟩ := hb b rfl
    have hcores := h.definitions.cores_replace (DefinitionBook.mem_of_lookup? hd)
      (show ({ d with independent := some axis } : Definition).core = d.core from rfl)
    have halike : Alike s { s with
        parameters := b
        definitions := s.definitions.replace { d with independent := some axis } } :=
      ⟨rfl, hkeyed, hnames, hcores, Nat.le_refl _, rfl⟩
    split
    · exact h.alike_self
    · split
      · split
        · exact halike
        · exact halike.trans (alike_release hkeyed _)
      · exact halike

/-! ### The step of an action -/

theorem Consistent.step_enter (h : s.Consistent) (raw : Text) (redefine : Bool) :
    Step s (.enter raw redefine) (s.enter raw redefine).2 := by
  generalize hr : s.enter raw redefine = result
  have hentered := h.entered raw redefine
  rw [hr] at hentered
  cases hentered with
  | unchanged _ hsame => exact .alike (hsame.alike h.parameters)
  | lost hl hsame => exact .functionLost hl hsame
  | parameter hp hb => exact .parameterBound hp hb
  | definition hp hb => exact .definitionBound hp hb

theorem Linked.filter_users_eq_nil (h : s.Linked) (node : Text) :
    (s.graph.users node).filter (fun u => some u != some node) = [] ↔ ¬ s.UsedByOthers node := by
  simp only [List.filter_eq_nil_iff, h.mem_users, UsedByOthers]
  constructor
  · rintro hu ⟨o, ho, hne, href⟩
    exact hu o.node ⟨o, ho, href, rfl⟩ (by simpa using hne)
  · rintro hu _ ⟨o, ho, href, rfl⟩ hne
    exact hu ⟨o, ho, by simpa using hne, href⟩

theorem Linked.usedByOthers_of_cons (h : s.Linked) {node u : Text} {us : List Text}
    (hu : (s.graph.users node).filter (fun u => some u != some node) = u :: us) :
    s.UsedByOthers node := by
  by_contra hno
  rw [(h.filter_users_eq_nil node).mpr hno] at hu
  cases hu

/-- Deleting a definition succeeds when no other one refers to it. -/
theorem Linked.delete_definition (h : s.Linked) {key : Text}
    (hd : s.definitions.lookup? key = some d) :
    (¬ s.UsedByOthers d.node ∧ s.delete key = .ok (true, s.without d.node)) ∨
      (s.UsedByOthers d.node ∧ ∃ users, s.delete key = .error (.usedBy key users)) := by
  unfold delete
  rw [hd]
  cases hu : (s.graph.users d.node).filter (fun u => some u != some d.node) with
  | nil =>
    refine Or.inl ⟨(h.filter_users_eq_nil _).mp hu, ?_⟩
    simp only [hu, h.remove_eq (DefinitionBook.mem_of_lookup? hd)]
  | cons u us =>
    exact Or.inr ⟨h.usedByOthers_of_cons hu, Text.sort (u :: us), by simp only [hu]⟩

theorem Consistent.not_mem_nodes_of_parameter (h : s.Consistent)
    (hn : name ∈ s.parameters.names) : name ∉ s.definitions.entries.map Definition.node := by
  rw [h.mem_nodes_iff (h.symbols name hn)]
  exact h.disjoint hn

/-- Deleting a parameter succeeds when no definition refers to it. -/
theorem Consistent.delete_parameter (h : s.Consistent) (hn : name ∈ s.parameters.names)
    (hd : s.definitions.lookup? name = none) :
    (¬ s.UsedByOthers name ∧
        s.delete name = .ok (true, { s with parameters := s.parameters.delete name })) ∨
      (s.UsedByOthers name ∧ ∃ users, s.delete name = .error (.usedBy name users)) := by
  have hown : (s.graph.users name).filter (fun u => some u != none) =
      (s.graph.users name).filter fun u => some u != some name := by
    apply List.filter_congr
    intro u hu
    obtain ⟨o, ho, -, rfl⟩ := h.mem_users.mp hu
    have hne : o.node ≠ name := fun he =>
      h.not_mem_nodes_of_parameter hn (he ▸ List.mem_map_of_mem ho)
    rw [Bool.eq_iff_iff, bne_iff_ne, bne_iff_ne]
    simpa using hne
  unfold delete
  rw [hd]
  dsimp only
  rw [if_neg (by simp [ParameterBook.contains_iff.mpr hn]), hown]
  cases hu : (s.graph.users name).filter (fun u => some u != some name) with
  | nil => exact Or.inl ⟨(h.filter_users_eq_nil _).mp hu, rfl⟩
  | cons u us => exact Or.inr ⟨h.usedByOthers_of_cons hu, Text.sort (u :: us), rfl⟩

theorem perform_delete_of_ok {key : Text} {found : Bool} (ht : s.delete key = .ok (found, t)) :
    s.perform (.delete key) = t := by
  simp only [perform, ht]

theorem perform_delete_of_error {key : Text} {e : SheetError} (he : s.delete key = .error e) :
    s.perform (.delete key) = s := by
  simp only [perform, he]

theorem Consistent.step_delete (h : s.Consistent) (key : Text) :
    Step s (.delete key) (s.perform (.delete key)) := by
  cases hd : s.definitions.lookup? key with
  | some d =>
    rcases h.delete_definition hd with ⟨hfree, hok⟩ | ⟨-, _, herror⟩
    · rw [perform_delete_of_ok hok]
      exact .definitionDropped (DefinitionBook.mem_of_lookup? hd) hfree
    · rw [perform_delete_of_error herror]
      exact .alike h.alike_self
  | none =>
    by_cases hn : key ∈ s.parameters.names
    · rcases h.delete_parameter hn hd with ⟨hfree, hok⟩ | ⟨-, _, herror⟩
      · rw [perform_delete_of_ok hok]
        exact .parameterDropped hn hfree
      · rw [perform_delete_of_error herror]
        exact .alike h.alike_self
    · have hnone : s.delete key = .ok (false, s) := by
        unfold delete
        rw [hd]
        dsimp only
        rw [if_pos]
        simpa [← ParameterBook.contains_iff] using hn
      rw [perform_delete_of_ok hnone]
      exact .alike h.alike_self

/-- Every action takes one of the steps. -/
theorem Consistent.step (h : s.Consistent) (a : Action) : Step s a (s.perform a) := by
  cases a with
  | enter raw redefine => exact h.step_enter raw redefine
  | delete key => exact h.step_delete key
  | setValue name value =>
    cases ht : s.setValue name value with
    | ok t =>
      rw [show s.perform (.setValue name value) = t by simp only [perform, ht]]
      exact .alike (h.alike_setValue ht)
    | error e =>
      rw [show s.perform (.setValue name value) = s by simp only [perform, ht]]
      exact .alike h.alike_self
  | toggle key => exact .alike (h.alike_toggle key)
  | setVariable key axis => exact .alike (h.alike_setVariable key axis)
  | evaluate key args => exact .alike h.alike_self
  | sample key lo hi count => exact .alike h.alike_self

end Formulary.Sheet
