import Formulary.Proofs.Sheet.Keyed
import Formulary.Proofs.Text.Distinct
import Formulary.Sheet.Definition

/-! # The definition book keeps its keys

Names of functions and ids stay distinct, so the tables made from the book have
one row for each function.
-/

namespace Formulary

open Keyed (place place_of_mem map_place_of_mem place_of_not_mem takeIn above_takeIn
  takeIn_write_numbered)
open SavedId (Above Numbered Step)

/-- A definition without what only tells how it is shown. -/
def Definition.core (d : Definition) : Definition := { d with independent := none, visible := true }

namespace DefinitionBook

variable {b : DefinitionBook} {name : Name} {d : Definition}

theorem put_eq_place (d : Definition) (l : List Definition) :
    put d l = place Definition.id d l := by
  induction l with
  | nil => rfl
  | cons q l ih => rw [put, place, ih]

/-- Names of functions and ids are distinct, and every id was given out by the counter. -/
structure Keyed (b : DefinitionBook) : Prop where
  names : b.names.Nodup
  ids : (b.entries.map Definition.id).Nodup
  issued : ∀ d ∈ b.entries, ∃ anonymous, ∃ n < b.nextId, d.id = idFor anonymous n

theorem keyed_empty : empty.Keyed :=
  ⟨List.nodup_nil, List.nodup_nil, by simp [empty]⟩

theorem idFor_inj {k k' : Bool} {m n : Nat} (h : idFor k m = idFor k' n) : m = n := by
  have hlen : (if k then text "plot-" else text "func-").length =
      (if k' then text "plot-" else text "func-").length := by
    cases k <;> cases k' <;> rfl
  exact Text.ofNat_inj.mp (List.append_inj h hlen).2

theorem Keyed.fresh (h : b.Keyed) (anonymous : Bool) :
    idFor anonymous b.nextId ∉ b.entries.map Definition.id := by
  intro hin
  obtain ⟨d, hd, hid⟩ := List.mem_map.mp hin
  obtain ⟨_, n, hn, hd'⟩ := h.issued d hd
  have := idFor_inj (hid.symm.trans hd')
  omega

/-! ### Looking up -/

theorem mem_named : d ∈ b.named ↔ d ∈ b.entries ∧ d.isAnonymous = false := by
  simp [named]

theorem mem_names : name ∈ b.names ↔
    ∃ d ∈ b.entries, d.isAnonymous = false ∧ d.name = name := by
  simp [names, named, and_assoc]

theorem find?_eq_named (b : DefinitionBook) (name : Name) :
    b.find? name = b.named.find? fun d => d.name == name := by
  simp only [find?, named, List.find?_filter, Bool.decide_and, Bool.decide_eq_true]

theorem Keyed.find?_eq_some (h : b.Keyed) :
    b.find? name = some d ↔ d ∈ b.entries ∧ d.isAnonymous = false ∧ d.name = name := by
  rw [find?_eq_named, Keyed.find?_eq_some_iff h.names, mem_named, and_assoc]

theorem contains_iff : b.contains name = true ↔ name ∈ b.names := by
  rw [contains, find?_eq_named]
  exact Keyed.isSome_find?_iff

theorem find?_eq_none : b.find? name = none ↔ name ∉ b.names := by
  rw [← contains_iff, contains]
  simp

theorem Keyed.get?_eq_some {id : Text} (h : b.Keyed) :
    b.get? id = some d ↔ d ∈ b.entries ∧ d.id = id :=
  Keyed.find?_eq_some_iff h.ids

theorem mem_of_lookup? {key : Text} (h : b.lookup? key = some d) : d ∈ b.entries := by
  unfold lookup? at h
  cases hf : b.find? key with
  | some d' =>
    rw [hf] at h
    obtain rfl : d' = d := by simpa using h
    exact List.mem_of_find?_eq_some hf
  | none =>
    rw [hf] at h
    exact List.mem_of_find?_eq_some h

/-! ### Tables -/

theorem setKey_of_not_mem {β : Type} {key : Name} {v : β} {l : List (Name × β)}
    (h : key ∉ l.map Prod.fst) : setKey key v l = l ++ [(key, v)] := by
  induction l with
  | nil => rfl
  | cons p l ih =>
    obtain ⟨k, w⟩ := p
    rw [List.map_cons, List.mem_cons, not_or] at h
    rw [setKey, if_neg (Ne.symm h.1), ih h.2, List.cons_append]

/-- Setting distinct new keys appends them. -/
theorem foldl_setKey {α β : Type} {key : α → Name} {f : α → β} {as : List α}
    {l : List (Name × β)} (h : (l.map Prod.fst ++ as.map key).Nodup) :
    as.foldl (fun l a => setKey (key a) (f a) l) l = l ++ as.map fun a => (key a, f a) := by
  induction as generalizing l with
  | nil => simp
  | cons a as ih =>
    have ha : key a ∉ l.map Prod.fst := fun hin =>
      (List.nodup_append.mp h).2.2 _ hin _ (by simp) rfl
    rw [List.foldl_cons, setKey_of_not_mem ha, ih (by simpa using h)]
    simp

theorem Keyed.arities_eq (h : b.Keyed) :
    b.arities = b.named.map fun d => (d.name, d.arity) := by
  have hn : (([] : Formula.Arities).map Prod.fst ++ b.named.map Definition.name).Nodup := h.names
  rw [arities, foldl_setKey hn, List.nil_append]

theorem Keyed.names_arities (h : b.Keyed) : b.arities.names = b.names := by
  rw [h.arities_eq, Formula.Arities.names, List.map_map]
  rfl

theorem Keyed.arity_of_mem (h : b.Keyed) (hd : d ∈ b.entries) (hk : d.isAnonymous = false) :
    b.arities.get? d.name = some d.arity := by
  have hmem : (d.name, d.arity) ∈ b.arities := by
    rw [h.arities_eq]
    exact List.mem_map.mpr ⟨d, mem_named.mpr ⟨hd, hk⟩, rfl⟩
  have hn : (b.arities.map Prod.fst).Nodup := by
    rw [show b.arities.map Prod.fst = b.names from h.names_arities]
    exact h.names
  rw [Formula.Arities.get?, (Keyed.find?_eq_some_iff hn).mpr ⟨hmem, rfl⟩]
  rfl

/-! ### Changing and leaving out -/

theorem Keyed.of_sublist {b' : DefinitionBook} (h : b.Keyed)
    (hs : b'.entries.Sublist b.entries) (hid : b.nextId ≤ b'.nextId) : b'.Keyed where
  names := h.names.sublist ((hs.filter _).map _)
  ids := h.ids.sublist (hs.map _)
  issued d hd := by
    obtain ⟨k, n, hn, hd⟩ := h.issued d (hs.mem hd)
    exact ⟨k, n, by omega, hd⟩

/-- The definitions without what only tells how they are shown. -/
def cores (b : DefinitionBook) : List Definition := b.entries.map Definition.core

theorem names_eq_cores (b : DefinitionBook) :
    b.names = (b.cores.filter fun d => !d.isAnonymous).map Definition.name := by
  rw [cores, List.filter_map, List.map_map]
  rfl

theorem ids_eq_cores (b : DefinitionBook) :
    b.entries.map Definition.id = b.cores.map Definition.id := by
  rw [cores, List.map_map]
  rfl

theorem exists_core_of_mem {b' : DefinitionBook} (hc : b'.cores = b.cores) (hd : d ∈ b'.entries) :
    ∃ d' ∈ b.entries, d'.core = d.core := by
  have : d.core ∈ b.cores := hc ▸ List.mem_map_of_mem hd
  exact List.mem_map.mp this

theorem Keyed.of_cores {b' : DefinitionBook} (h : b.Keyed) (hc : b'.cores = b.cores)
    (hid : b.nextId ≤ b'.nextId) : b'.Keyed where
  names := by rw [names_eq_cores, hc, ← names_eq_cores]; exact h.names
  ids := by rw [ids_eq_cores, hc, ← ids_eq_cores]; exact h.ids
  issued d hd := by
    obtain ⟨d', hd', hcore⟩ := exists_core_of_mem hc hd
    obtain ⟨k, n, hn, hid'⟩ := h.issued d' hd'
    have : d'.core.id = d.core.id := congrArg Definition.id hcore
    exact ⟨k, n, by omega, this.symm.trans hid'⟩

/-- Storing a changed entry in its place changes nothing but how it is shown. -/
theorem Keyed.cores_replace {d' : Definition} (h : b.Keyed) (hd : d ∈ b.entries)
    (hc : d'.core = d.core) : (b.replace d').cores = b.cores := by
  have hid : d'.id = d.id := show d'.core.id = d.core.id by rw [hc]
  have hin : d'.id ∈ b.entries.map Definition.id := hid ▸ List.mem_map_of_mem hd
  rw [cores, replace, put_eq_place, place_of_mem h.ids hin, List.map_map]
  apply List.map_congr_left
  intro q hq
  by_cases hq' : q.id = d'.id
  · obtain rfl := Keyed.eq_of_key h.ids hq hd (hq'.trans hid)
    simp [hq', hc]
  · simp [hq']

end DefinitionBook

/-! ## Requests to a definition book

A definition is read back from what it is saved as. Asking a definition book for an id, adding
a definition under it or under one given out before, or leaving definitions out numbers the ids
on; loading, whatever is loaded, keeps the counter ahead of them.
-/

namespace DefinitionBook

variable {b b' : DefinitionBook} {d : Definition} {anonymous : Bool} {n : Nat}

def ids (b : DefinitionBook) : List Text := b.entries.map Definition.id

/-! ### Saved definitions -/

theorem texts?_strings (ts : List Text) : texts? (some (Json.strings ts)) = some ts := by
  change (ts.map Json.str).mapM ParameterBook.text? = some ts
  induction ts with
  | nil => rfl
  | cons t ts ih => simp [ParameterBook.text?, ih]

theorem kindOf_label (kind : HeadKind) : kindOf kind.label = kind := by
  cases kind <;> decide

theorem entry?_saveEntry (d : Definition) : entry? (saveEntry d) = some d := by
  have hread : entry? (saveEntry d) =
      (texts? (some (Json.strings d.formals))).bind fun formals =>
        (texts? (some (Json.strings d.dependencies))).bind fun dependencies =>
          (texts? (some (Json.strings d.calls))).bind fun calls =>
            some { d with kind := kindOf d.kind.label, formals, dependencies, calls } := by
    obtain ⟨id, name, kind, formals, rhs, source, dependencies, calls, independent, visible⟩ := d
    cases independent <;> rfl
  rw [hread, texts?_strings, texts?_strings, texts?_strings, kindOf_label]
  rfl

theorem loadEntries_eq_takeIn (b : DefinitionBook) (items : List Json) :
    let taken := takeIn Definition.id entry? b.entries b.nextId items
    b.loadEntries items = (⟨taken.1, taken.2.1⟩, taken.2.2) := by
  induction items generalizing b with
  | nil => rfl
  | cons j rest ih =>
    rw [loadEntries, takeIn]
    cases entry? j with
    | none => rfl
    | some d =>
      dsimp only
      rw [put_eq_place]
      cases SavedId.counterAfter d.id with
      | error e => rfl
      | ok n => exact ih _

theorem load_eq_takeIn (b : DefinitionBook) (items : List Json) :
    let taken := takeIn Definition.id entry? [] b.nextId items
    b.load items = (⟨taken.1, taken.2.1⟩, taken.2.2) :=
  loadEntries_eq_takeIn b.clear items

theorem above_load (b : DefinitionBook) (items : List Json) :
    Above (b.load items).1.nextId (b.load items).1.ids := by
  rw [load_eq_takeIn]
  exact above_takeIn (SavedId.above_nil b.nextId) items

theorem load_save_into (h : Numbered b.nextId b.ids) (b' : DefinitionBook) :
    ∃ n, Numbered n b.ids ∧ b'.load b.save = (⟨b.entries, n⟩, none) := by
  obtain ⟨n, hn, htake⟩ := takeIn_write_numbered entry?_saveEntry h b'.nextId
  exact ⟨n, hn, by rw [load_eq_takeIn, save, htake]⟩

/-! ### Requests -/

/-- What is asked of a definition book. What is added gets the next id, or keeps an id that was
asked for before, with the number `n`. -/
inductive Request where
  | newId (anonymous : Bool)
  | add (anonymous : Bool) (d : Definition)
  | addKept (anonymous : Bool) (n : Nat) (d : Definition)
  | remove (id : Text)
  | clear
  | load (items : List Json)

/-- Adds under a new id; the id is used up even if the definition is refused. -/
def addNew (b : DefinitionBook) (anonymous : Bool) (d : Definition) :
    Except SheetError DefinitionBook :=
  (b.newId anonymous).2.add { d with id := (b.newId anonymous).1 }

def perform (b : DefinitionBook) : Request → DefinitionBook
  | .newId anonymous => (b.newId anonymous).2
  | .add anonymous d =>
    match b.addNew anonymous d with
    | .ok b' => b'
    | .error _ => (b.newId anonymous).2
  | .addKept anonymous n d =>
    match b.add { d with id := idFor anonymous n } with
    | .ok b' => if n < b.nextId then b' else b
    | .error _ => b
  | .remove id => b.remove id
  | .clear => b.clear
  | .load items => (b.load items).1

def run (requests : List Request) : DefinitionBook := requests.foldl perform empty

theorem idFor_eq (anonymous : Bool) (n : Nat) :
    ∃ pre, idFor anonymous n = pre ++ '-' :: Text.ofNat n := by
  cases anonymous
  · exact ⟨text "func", rfl⟩
  · exact ⟨text "plot", rfl⟩

theorem idFor_not_mem (h : Above b.nextId b.ids) (anonymous : Bool) :
    idFor anonymous b.nextId ∉ b.ids := by
  obtain ⟨pre, hid⟩ := idFor_eq anonymous b.nextId
  exact hid ▸ h.not_mem pre

theorem eq_of_addNew (h : Above b.nextId b.ids) (hadd : b.addNew anonymous d = .ok b') :
    b' = ⟨b.entries ++ [{ d with id := idFor anonymous b.nextId }], b.nextId + 1⟩ := by
  unfold addNew add at hadd
  split at hadd
  case isTrue => simp at hadd
  case isFalse =>
    obtain rfl := Except.ok.inj hadd
    rw [put_eq_place]
    exact congrArg (DefinitionBook.mk · _) (place_of_not_mem (idFor_not_mem h anonymous))

/-- A definition that keeps an id takes its own place under it, or comes last. -/
theorem step_add (hid : d.id = idFor anonymous n) (hn : n < b.nextId) (hadd : b.add d = .ok b') :
    Step b.nextId b.ids b'.nextId b'.ids := by
  unfold add at hadd
  split at hadd
  case isTrue => simp at hadd
  case isFalse =>
    obtain rfl := Except.ok.inj hadd
    rw [put_eq_place]
    by_cases hin : d.id ∈ b.ids
    · have hids : ids ⟨place Definition.id d b.entries, b.nextId⟩ = b.ids := map_place_of_mem hin
      rw [hids]
      exact .refl
    · obtain ⟨pre, hpre⟩ := idFor_eq anonymous n
      rw [place_of_not_mem hin]
      rw [hid, hpre] at hin
      simpa [ids, hid, hpre] using Step.issue pre (Nat.le_refl _) hn hin

theorem step_perform (h : Above b.nextId b.ids) {request : Request}
    (hr : ∀ items, request ≠ .load items) :
    Step b.nextId b.ids (b.perform request).nextId (b.perform request).ids := by
  cases request with
  | newId anonymous => exact .drop (List.Sublist.refl _) (Nat.le_succ _)
  | add anonymous d =>
    rw [perform]
    split
    case h_1 hadd =>
      obtain ⟨pre, hid⟩ := idFor_eq anonymous b.nextId
      obtain rfl := eq_of_addNew h hadd
      simpa [ids, hid] using h.issue_next pre
    case h_2 => exact .drop (List.Sublist.refl _) (Nat.le_succ _)
  | addKept anonymous n d =>
    rw [perform]
    split
    case h_1 hadd =>
      split
      case isTrue hn => exact step_add rfl hn hadd
      case isFalse => exact .refl
    case h_2 => exact .refl
  | remove id => exact .drop (List.filter_sublist.map _) (Nat.le_refl _)
  | clear => exact .drop (List.nil_sublist _) (Nat.le_refl _)
  | load items => exact absurd rfl (hr items)

theorem above_perform (h : Above b.nextId b.ids) (request : Request) :
    Above (b.perform request).nextId (b.perform request).ids := by
  by_cases hr : ∃ items, request = .load items
  · obtain ⟨items, rfl⟩ := hr
    exact above_load b items
  · exact h.step (step_perform h fun items he => hr ⟨items, he⟩)

theorem above_run (requests : List Request) : Above (run requests).nextId (run requests).ids :=
  List.foldlRecOn (motive := fun b => Above b.nextId b.ids) requests perform (SavedId.above_nil 1)
    fun _ hb request _ => above_perform hb request

/-- The books that requests lead to where all that is loaded was saved by such a book. -/
inductive Native : DefinitionBook → Prop
  | empty : Native empty
  | perform {b : DefinitionBook} (h : Native b) {request : Request}
      (hr : ∀ items, request ≠ .load items) : Native (b.perform request)
  | load {b b' : DefinitionBook} (h : Native b) (h' : Native b') : Native (b.load b'.save).1

theorem Native.numbered (h : Native b) : Numbered b.nextId b.ids := by
  induction h with
  | empty => exact SavedId.numbered_nil 1
  | perform _ hr ih => exact ih.step (step_perform ih.above hr)
  | @load b b' _ _ _ ih =>
    obtain ⟨n, hn, hload⟩ := load_save_into ih b
    rw [hload]
    exact hn

end DefinitionBook

end Formulary
