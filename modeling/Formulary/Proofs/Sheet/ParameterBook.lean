import Formulary.Proofs.Sheet.Keyed
import Formulary.Proofs.Text.Distinct
import Formulary.Sheet.Parameter

/-! # The parameter book keeps its keys

Names and ids stay distinct. Creating appends an entry, deleting leaves out the
entry of a name, and nothing but the counter tells that a created entry was taken
away again.
-/

namespace Formulary

open Keyed (place place_of_mem place_of_not_mem find?_eq_some_iff)

theorem ParameterBook.put_eq_place (p : Parameter) (l : List Parameter) :
    ParameterBook.put p l = place Parameter.id p l := by
  induction l with
  | nil => rfl
  | cons q l ih => rw [ParameterBook.put, place, ih]

namespace ParameterBook

variable {b : ParameterBook} {name : Name} {p : Parameter} {value : Double} {o : ParameterOptions}

/-- Names and ids are distinct, and every id was given out by the counter. -/
structure Keyed (b : ParameterBook) : Prop where
  names : b.names.Nodup
  ids : (b.entries.map Parameter.id).Nodup
  issued : ∀ p ∈ b.entries, ∃ n < b.nextId, p.id = idFor n

theorem keyed_empty : empty.Keyed :=
  ⟨List.nodup_nil, List.nodup_nil, by simp [empty]⟩

theorem idFor_inj {m n : Nat} (h : idFor m = idFor n) : m = n :=
  Text.ofNat_inj.mp (List.append_cancel_left h)

theorem Keyed.fresh (h : b.Keyed) : idFor b.nextId ∉ b.entries.map Parameter.id := by
  intro hin
  obtain ⟨p, hp, hid⟩ := List.mem_map.mp hin
  obtain ⟨n, hn, hp'⟩ := h.issued p hp
  have := idFor_inj (hid.symm.trans hp')
  omega

theorem Keyed.find?_eq_some (h : b.Keyed) :
    b.find? name = some p ↔ p ∈ b.entries ∧ p.name = name :=
  find?_eq_some_iff h.names

theorem contains_iff : b.contains name = true ↔ name ∈ b.names := Keyed.isSome_find?_iff

theorem find?_eq_none : b.find? name = none ↔ name ∉ b.names := by
  rw [← contains_iff, contains]
  simp

/-! ### Deleting -/

theorem Keyed.of_sublist {b' : ParameterBook} (h : b.Keyed) (hs : b'.entries.Sublist b.entries)
    (hid : b.nextId ≤ b'.nextId) : b'.Keyed where
  names := h.names.sublist (hs.map _)
  ids := h.ids.sublist (hs.map _)
  issued p hp := by
    obtain ⟨n, hn, hp⟩ := h.issued p (hs.mem hp)
    exact ⟨n, by omega, hp⟩

theorem delete_nextId : (b.delete name).nextId = b.nextId := by
  unfold delete
  split <;> rfl

theorem Keyed.delete_entries (h : b.Keyed) :
    (b.delete name).entries = b.entries.filter fun p => p.name != name := by
  unfold ParameterBook.delete
  split
  case h_1 hf =>
    rw [List.filter_eq_self.mpr fun p hp => ?_]
    rw [bne_iff_ne]
    rintro rfl
    exact find?_eq_none.mp hf (List.mem_map_of_mem hp)
  case h_2 p hf =>
    obtain ⟨hp, rfl⟩ := h.find?_eq_some.mp hf
    exact Keyed.filter_key_congr h.ids h.names hp

theorem Keyed.delete (h : b.Keyed) : (b.delete name).Keyed := by
  refine h.of_sublist ?_ (Nat.le_of_eq delete_nextId.symm)
  rw [h.delete_entries]
  exact List.filter_sublist

theorem Keyed.names_delete (h : b.Keyed) :
    (b.delete name).names = b.names.filter (· != name) := by
  rw [ParameterBook.names, h.delete_entries, Keyed.map_filter_key]
  rfl

/-! ### Changing -/

/-- A change to the entry of a name, if it keeps name and id. -/
theorem Keyed.modify_entries {f : Parameter → Parameter} (h : b.Keyed) (hf : ∀ p, (f p).id = p.id) :
    (b.modify name f).entries = b.entries.map fun p => if p.name = name then f p else p := by
  unfold modify
  split
  case h_1 hnone =>
    refine ((List.map_congr_left fun p hp => ?_).trans (List.map_id _)).symm
    have hne : p.name ≠ name := by
      rintro rfl
      exact find?_eq_none.mp hnone (List.mem_map_of_mem hp)
    rw [if_neg hne, id]
  case h_2 p hsome =>
    obtain ⟨hp, rfl⟩ := h.find?_eq_some.mp hsome
    change put (f p) b.entries = _
    rw [put_eq_place, place_of_mem h.ids (by rw [hf]; exact List.mem_map_of_mem hp)]
    apply List.map_congr_left
    intro q hq
    rw [hf]
    by_cases hqp : q.id = p.id
    · obtain rfl := Keyed.eq_of_key h.ids hq hp hqp
      simp
    · have hname : q.name ≠ p.name := fun he =>
        hqp (congrArg _ (Keyed.eq_of_key h.names hq hp he))
      rw [if_neg hqp, if_neg hname]

theorem modify_nextId {f : Parameter → Parameter} : (b.modify name f).nextId = b.nextId := by
  unfold modify
  split <;> rfl

theorem Keyed.names_modify {f : Parameter → Parameter} (h : b.Keyed) (hid : ∀ p, (f p).id = p.id)
    (hname : ∀ p, (f p).name = p.name) : (b.modify name f).names = b.names := by
  rw [ParameterBook.names, h.modify_entries hid, List.map_map]
  apply List.map_congr_left
  intro p _
  by_cases hp : p.name = name
  · simp [hp, hname]
  · simp [hp]

theorem Keyed.modify {f : Parameter → Parameter} (h : b.Keyed) (hid : ∀ p, (f p).id = p.id)
    (hname : ∀ p, (f p).name = p.name) : (b.modify name f).Keyed where
  names := by rw [h.names_modify hid hname]; exact h.names
  ids := by
    rw [h.modify_entries hid, List.map_map]
    refine (List.map_congr_left fun p _ => ?_ : _ = b.entries.map Parameter.id) ▸ h.ids
    by_cases hp : p.name = name <;> simp [hp, hid]
  issued p hp := by
    rw [h.modify_entries hid] at hp
    obtain ⟨q, hq, rfl⟩ := List.mem_map.mp hp
    obtain ⟨n, hn, hid'⟩ := h.issued q hq
    refine ⟨n, by rwa [modify_nextId], ?_⟩
    by_cases hqn : q.name = name <;> simp [hqn, hid, hid']

/-! ### Creating -/

/-- The entry that a name, a value and options become. -/
def entryFor (n : Nat) (name : Name) (value : Double) (o : ParameterOptions) : Parameter where
  id := idFor n
  name := name
  value := value
  min := Double.min o.min value
  max := Double.max o.max value
  step := o.step
  role := o.role
  source := o.source

/-- The book with one more entry. -/
def extend (b : ParameterBook) (name : Name) (value : Double) (o : ParameterOptions) :
    ParameterBook :=
  ⟨b.entries ++ [entryFor b.nextId name value o], b.nextId + 1⟩

theorem names_extend : (b.extend name value o).names = b.names ++ [name] := by
  simp [ParameterBook.names, extend, entryFor]

theorem Keyed.extend (h : b.Keyed) (hname : name ∉ b.names) : (b.extend name value o).Keyed where
  names := by
    rw [names_extend, List.nodup_append_comm]
    simpa using ⟨hname, h.names⟩
  ids := by
    have hids : (b.extend name value o).entries.map Parameter.id =
        b.entries.map Parameter.id ++ [idFor b.nextId] := by
      simp [ParameterBook.extend, entryFor]
    rw [hids, List.nodup_append_comm, List.singleton_append, List.nodup_cons]
    exact ⟨h.fresh, h.ids⟩
  issued p hp := by
    rcases List.mem_append.mp hp with hp | hp
    · obtain ⟨n, hn, hp⟩ := h.issued p hp
      exact ⟨n, Nat.lt_succ_of_lt hn, hp⟩
    · obtain rfl := List.mem_singleton.mp hp
      exact ⟨b.nextId, Nat.lt_succ_self _, rfl⟩

/-- An entry is created where the check lets it. -/
theorem Keyed.create_eq (h : b.Keyed) : b.create name value o =
    (check b name value o).map fun _ =>
      (entryFor b.nextId name value o, b.extend name value o) := by
  unfold create
  cases check b name value o with
  | error e => rfl
  | ok u =>
    change Except.ok (entryFor b.nextId name value o,
      (⟨put (entryFor b.nextId name value o) b.entries, b.nextId + 1⟩ : ParameterBook)) = _
    rw [put_eq_place, place_of_not_mem h.fresh]
    rfl

/-- In the usual domain only the name and the value can be refused. -/
theorem check_usual {source : Text} : check b name value { source } =
    if name ∈ b.names then .error (.parameterExists name)
    else if value.isFinite then .ok () else .error (.notFinite name) := by
  have hdomain : Double.lt Parameter.usualMax Parameter.usualMin = false := by decide
  have hstep : Double.le Parameter.usualStep Double.zero = false := by decide
  unfold check
  by_cases hn : name ∈ b.names
  · rw [if_pos (contains_iff.mpr hn), if_pos hn]
  · rw [if_neg fun h => hn (contains_iff.mp h), if_neg hn]
    by_cases hv : value.isFinite = true <;> simp [hv, hdomain, hstep]

/-! ### Creating what is missing -/

/-- The book with the missing names, none of them set by the user. -/
def autos (b : ParameterBook) (names : List Name) : ParameterBook :=
  names.foldl (fun b name =>
    b.extend name Parameter.usualValue { source := Parameter.autoSource }) b

theorem Keyed.createAuto_eq (h : b.Keyed) : b.createAuto name =
    if name ∈ b.names then .error (.parameterExists name)
    else .ok (entryFor b.nextId name Parameter.usualValue { source := Parameter.autoSource },
      b.autos [name]) := by
  have hvalue : Parameter.usualValue.isFinite = true := by decide
  rw [createAuto, h.create_eq, check_usual]
  by_cases hn : name ∈ b.names
  · rw [if_pos hn, if_pos hn]
    rfl
  · rw [if_neg hn, if_neg hn, if_pos hvalue]
    rfl

theorem names_autos {names : List Name} : (b.autos names).names = b.names ++ names := by
  induction names generalizing b with
  | nil => simp [autos]
  | cons name names ih =>
    show ((b.extend name _ _).autos names).names = _
    rw [ih, names_extend, List.append_assoc, List.singleton_append]

theorem Keyed.autos {names : List Name} (h : b.Keyed) (hn : (b.names ++ names).Nodup) :
    (b.autos names).Keyed := by
  induction names generalizing b with
  | nil => exact h
  | cons name names ih =>
    have hname : name ∉ b.names := fun hin =>
      (List.nodup_append.mp hn).2.2 _ hin _ List.mem_cons_self rfl
    apply ih (h.extend hname)
    rw [names_extend, List.append_assoc, List.singleton_append]
    exact hn

theorem autos_entries (b : ParameterBook) (names : List Name) :
    ∃ more, (b.autos names).entries = b.entries ++ more ∧ more.map Parameter.name = names ∧
      b.nextId ≤ (b.autos names).nextId := by
  induction names generalizing b with
  | nil => exact ⟨[], by simp [ParameterBook.autos]⟩
  | cons name names ih =>
    obtain ⟨more, hentries, hnames, hid⟩ :=
      ih (b.extend name Parameter.usualValue { source := Parameter.autoSource })
    refine ⟨entryFor b.nextId name Parameter.usualValue { source := Parameter.autoSource } :: more,
      ?_, by simp [hnames, entryFor], Nat.le_trans (Nat.le_succ _) hid⟩
    show (ParameterBook.autos (b.extend name _ _) names).entries = _
    rw [hentries, extend, List.append_assoc, List.singleton_append]

theorem Keyed.deleteAll (h : b.Keyed) (names : List Name) :
    (names.foldl ParameterBook.delete b).Keyed ∧
      (names.foldl ParameterBook.delete b).entries =
        b.entries.filter (fun p => !names.contains p.name) ∧
      (names.foldl ParameterBook.delete b).nextId = b.nextId := by
  induction names generalizing b with
  | nil => simpa using h
  | cons name names ih =>
    obtain ⟨hkeyed, hentries, hid⟩ := ih h.delete
    refine ⟨hkeyed, ?_, hid.trans delete_nextId⟩
    rw [List.foldl_cons, hentries, h.delete_entries, List.filter_filter]
    apply List.filter_congr
    intro p _
    rw [Bool.eq_iff_iff]
    simp [and_comm]

/-- What was created goes away without a trace but for the counter. -/
theorem Keyed.deleteAll_autos {names : List Name} (h : b.Keyed) (hn : (b.names ++ names).Nodup) :
    (names.foldl ParameterBook.delete (b.autos names)).entries = b.entries ∧
      b.nextId ≤ (names.foldl ParameterBook.delete (b.autos names)).nextId := by
  obtain ⟨-, hentries, hid⟩ := (h.autos hn).deleteAll names
  obtain ⟨more, hmore, hnames, hle⟩ := autos_entries b names
  refine ⟨?_, hid ▸ hle⟩
  have hold : b.entries.filter (fun p => !names.contains p.name) = b.entries := by
    apply List.filter_eq_self.mpr
    intro p hp
    have : p.name ∉ names := fun hin =>
      (List.nodup_append.mp hn).2.2 _ (List.mem_map_of_mem hp) _ hin rfl
    simpa using this
  have hnew : more.filter (fun p => !names.contains p.name) = [] := by
    apply List.filter_eq_nil_iff.mpr
    intro p hp
    have : p.name ∈ names := hnames ▸ List.mem_map_of_mem hp
    simpa using this
  rw [hentries, hmore, List.filter_append, hold, hnew, List.append_nil]

end ParameterBook

end Formulary
