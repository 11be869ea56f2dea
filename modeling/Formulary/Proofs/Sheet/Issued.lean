import Formulary.Proofs.Sheet.DefinitionBook
import Formulary.Proofs.Sheet.ParameterRun

/-! # New ids

Whatever is asked of a book and whatever it loads, foreign entries and loads that stop midway
included, the id that it gives out next is none of those in it, so the entry that gets it
replaces no other. A book that never loaded foreign entries is saved and loaded into a new
book without loss.
-/

namespace Formulary

open Keyed (map_place_of_mem place_of_not_mem takeIn above_takeIn takeIn_write_numbered)
open SavedId (Above Numbered Step)

namespace ParameterBook

variable {b b' : ParameterBook} {name : Name} {value : Double} {o : ParameterOptions}
  {p : Parameter}

def ids (b : ParameterBook) : List Text := b.entries.map Parameter.id

/-- A request, or saved entries of any origin to be loaded. -/
inductive Turn where
  | ask (request : Request)
  | load (items : List Json)

def take (b : ParameterBook) : Turn → ParameterBook
  | .ask request => (b.perform request).1
  | .load items => (b.load items).1

def takeAll (turns : List Turn) : ParameterBook := turns.foldl take empty

/-! ### Loading -/

theorem load_eq_takeIn (b : ParameterBook) (items : List Json) :
    let taken := takeIn Parameter.id entry? [] b.nextId items
    b.load items = (⟨taken.1, taken.2.1⟩, taken.2.2) :=
  loadEntries_eq_takeIn b.clear items

theorem above_load (b : ParameterBook) (items : List Json) :
    Above (b.load items).1.nextId (b.load items).1.ids := by
  rw [load_eq_takeIn]
  exact above_takeIn (SavedId.above_nil b.nextId) items

theorem load_save_into (h : Numbered b.nextId b.ids) (b' : ParameterBook) :
    ∃ n, Numbered n b.ids ∧ b'.load b.save = (⟨b.entries, n⟩, none) := by
  obtain ⟨n, hn, htake⟩ := takeIn_write_numbered entry?_saveEntry h b'.nextId
  exact ⟨n, hn, by rw [load_eq_takeIn, save, htake]⟩

/-! ### Requests -/

theorem idFor_eq (n : Nat) : idFor n = text "param" ++ '-' :: Text.ofNat n := rfl

theorem idFor_not_mem (h : Above b.nextId b.ids) : idFor b.nextId ∉ b.ids :=
  h.not_mem (text "param")

theorem eq_of_create (h : Above b.nextId b.ids) (hcreate : b.create name value o = .ok (p, b')) :
    p = entryFor b.nextId name value o ∧ b' = b.extend name value o := by
  obtain ⟨-, -, hcreate⟩ := ok_of_bind hcreate
  obtain ⟨rfl, rfl⟩ := Prod.mk.inj (Except.ok.inj hcreate)
  refine ⟨rfl, ?_⟩
  rw [put_eq_place]
  exact congrArg (ParameterBook.mk · _) (place_of_not_mem (idFor_not_mem h))

theorem step_extend (h : Above b.nextId b.ids) :
    Step b.nextId b.ids (b.extend name value o).nextId (b.extend name value o).ids := by
  have hids : (b.extend name value o).ids = b.ids ++ [idFor b.nextId] := by
    simp [ids, extend, entryFor]
  rw [hids, idFor_eq]
  exact h.issue_next (text "param")

theorem ids_modify {f : Parameter → Parameter} (hf : ∀ p, (f p).id = p.id) :
    (b.modify name f).ids = b.ids := by
  unfold modify
  split
  case h_1 => rfl
  case h_2 p hp =>
    have hmem : (f p).id ∈ b.ids := hf p ▸ List.mem_map_of_mem (List.mem_of_find?_eq_some hp)
    rw [ids, put_eq_place, map_place_of_mem hmem]
    rfl

theorem step_modify {f : Parameter → Parameter} (hf : ∀ p, (f p).id = p.id) :
    Step b.nextId b.ids (b.modify name f).nextId (b.modify name f).ids := by
  rw [modify_nextId, ids_modify hf]
  exact .refl

theorem step_attempt {x : Except SheetError ParameterBook}
    (hx : ∀ b', x = .ok b' → Step b.nextId b.ids b'.nextId b'.ids) :
    Step b.nextId b.ids (b.attempt x).1.nextId (b.attempt x).1.ids := by
  cases x with
  | ok b' => exact hx b' rfl
  | error e => exact .refl

theorem step_create (h : Above b.nextId b.ids) :
    let c := (b.attempt ((b.create name value o).map Prod.snd)).1
    Step b.nextId b.ids c.nextId c.ids := by
  refine step_attempt fun b' hb' => ?_
  obtain ⟨⟨p, b''⟩, hcreate, rfl⟩ := ok_of_map hb'
  rw [(eq_of_create h hcreate).2]
  exact step_extend h

theorem step_delete : Step b.nextId b.ids (b.delete name).nextId (b.delete name).ids := by
  unfold delete
  split
  case h_1 => exact .refl
  case h_2 => exact .drop (List.filter_sublist.map _) (Nat.le_refl _)

/-- Only loading takes in ids that the counter has not given out. -/
theorem step_perform (h : Above b.nextId b.ids) {request : Request} (hr : request ≠ .reload) :
    Step b.nextId b.ids (b.perform request).1.nextId (b.perform request).1.ids := by
  cases request with
  | create name value options => exact step_create h
  | createAuto name => exact step_create h
  | update name value =>
    refine step_attempt fun b' hb' => ?_
    obtain ⟨p, -, hb'⟩ := ok_of_bind hb'
    split at hb'
    case isTrue => simp at hb'
    case isFalse =>
      split at hb'
      case isTrue =>
        obtain rfl := Except.ok.inj hb'
        exact step_modify fun _ => rfl
      case isFalse => simp at hb'
  | setRole name role =>
    refine step_attempt fun b' hb' => ?_
    obtain ⟨p, -, hb'⟩ := ok_of_bind hb'
    obtain rfl := Except.ok.inj hb'
    exact step_modify fun _ => rfl
  | delete name => exact step_delete
  | clear => exact .drop (List.nil_sublist _) (Nat.le_refl _)
  | reload => exact absurd rfl hr

theorem above_take (h : Above b.nextId b.ids) (turn : Turn) :
    Above (b.take turn).nextId (b.take turn).ids := by
  cases turn with
  | ask request =>
    by_cases hr : request = .reload
    · subst hr
      exact above_load b b.save
    · exact h.step (step_perform h hr)
  | load items => exact above_load b items

theorem above_takeAll (turns : List Turn) : Above (takeAll turns).nextId (takeAll turns).ids :=
  List.foldlRecOn (motive := fun b => Above b.nextId b.ids) turns take (SavedId.above_nil 1)
    fun _ hb turn _ => above_take hb turn

/-- The books that requests lead to where all that is loaded was saved by such a book. -/
inductive Native : ParameterBook → Prop
  | empty : Native empty
  | perform {b : ParameterBook} (h : Native b) (request : Request) : Native (b.perform request).1
  | load {b b' : ParameterBook} (h : Native b) (h' : Native b') : Native (b.load b'.save).1

theorem Native.numbered (h : Native b) : Numbered b.nextId b.ids := by
  have hload : ∀ b b' : ParameterBook, Numbered b'.nextId b'.ids →
      Numbered (b.load b'.save).1.nextId (b.load b'.save).1.ids := by
    intro b b' h'
    obtain ⟨n, hn, hload⟩ := load_save_into h' b
    rw [hload]
    exact hn
  induction h with
  | empty => exact SavedId.numbered_nil 1
  | @perform b _ request ih =>
    by_cases hr : request = .reload
    · subst hr
      exact hload b b ih
    · exact ih.step (step_perform ih.above hr)
  | @load b b' _ _ _ ih => exact hload b b' ih

end ParameterBook

/-! ### Both books -/

/-- After any turns the id that comes next is in neither book, and what is created under it is
appended. Without foreign entries, a new book takes in all that was saved, in its order. -/
theorem next_id_new :
    (∀ turns, let b := ParameterBook.takeAll turns
      ParameterBook.idFor b.nextId ∉ b.ids ∧
        ∀ name value o p b', b.create name value o = .ok (p, b') →
          p.id = ParameterBook.idFor b.nextId ∧ b'.entries = b.entries ++ [p]) ∧
    (∀ requests anonymous, let b := DefinitionBook.run requests
      (b.newId anonymous).1 ∉ b.ids ∧
        ∀ d b', b.addNew anonymous d = .ok b' →
          b'.entries = b.entries ++ [{ d with id := (b.newId anonymous).1 }]) ∧
    (∀ b, ParameterBook.Native b →
      ∃ n, ParameterBook.empty.load b.save = (⟨b.entries, n⟩, none)) ∧
    (∀ b, DefinitionBook.Native b →
      ∃ n, DefinitionBook.empty.load b.save = (⟨b.entries, n⟩, none)) := by
  refine ⟨fun turns => ?_, fun requests anonymous => ?_, fun b h => ?_, fun b h => ?_⟩
  · have habove := ParameterBook.above_takeAll turns
    refine ⟨ParameterBook.idFor_not_mem habove, fun name value o p b' hcreate => ?_⟩
    obtain ⟨rfl, rfl⟩ := ParameterBook.eq_of_create habove hcreate
    exact ⟨rfl, rfl⟩
  · have habove := DefinitionBook.above_run requests
    refine ⟨DefinitionBook.idFor_not_mem habove anonymous, fun d b' hadd => ?_⟩
    obtain rfl := DefinitionBook.eq_of_addNew habove hadd
    rfl
  · obtain ⟨n, -, hload⟩ := ParameterBook.load_save_into h.numbered ParameterBook.empty
    exact ⟨n, hload⟩
  · obtain ⟨n, -, hload⟩ := DefinitionBook.load_save_into h.numbered DefinitionBook.empty
    exact ⟨n, hload⟩

/-- A load that stops at a superscript has raised the counter above the digit of another script,
and an id without a dash has not. A definition that comes late keeps the id that was given out
for it, and the next one gets another. -/
theorem next_id_new_after_foreign :
    let item := fun id : String => Json.obj [(text "id", .str (text id)),
      (text "name", .str (text "k")), (text "value", .int 1)]
    let loaded := [.load (["param-٣", "k", "param-²", "param-9"].map item)]
    let b := ParameterBook.takeAll loaded
    let made := ParameterBook.entryFor 4 (text "a") (Double.ofInt 1) {}
    let grown := b.extend (text "a") (Double.ofInt 1) {}
    let own := (ParameterBook.empty.perform (.createAuto (text "a"))).1
    let plot : Definition :=
      { id := text "plot-٣", name := plotName, kind := .anonymous, formals := [], rhs := text "x" }
    let f : Definition := { plot with name := text "f", kind := .function }
    let asked := [.load [DefinitionBook.saveEntry plot], .newId true, .addKept true 4 plot]
    let c := DefinitionBook.run asked
    let next : DefinitionBook :=
      ⟨[plot, { plot with id := text "plot-4" }, { f with id := text "func-5" }], 6⟩
    let ownPlot := DefinitionBook.empty.perform (.add true plot)
    b.ids = ["param-٣", "k", "param-²"].map text ∧
      b.create (text "a") (Double.ofInt 1) {} = .ok (made, grown) ∧
      made.id = text "param-4" ∧ made.id ∉ b.ids ∧ grown.entries = b.entries ++ [made] ∧
      (∃ n, ParameterBook.empty.load own.save = (⟨own.entries, n⟩, none)) ∧
      c.addNew false f = .ok next ∧ (c.newId false).1 ∉ c.ids ∧
      next.entries = c.entries ++ [{ f with id := (c.newId false).1 }] ∧
      ∃ n, DefinitionBook.empty.load ownPlot.save = (⟨ownPlot.entries, n⟩, none) := by
  intro item loaded b made grown own plot f asked c next ownPlot
  have hcreate : b.create (text "a") (Double.ofInt 1) {} = .ok (made, grown) := by decide +kernel
  have hadd : c.addNew false f = .ok next := by decide +kernel
  obtain ⟨hparameters, hdefinitions, hnative, hnative'⟩ := next_id_new
  obtain ⟨hnew, hcreated⟩ := hparameters loaded
  obtain ⟨hid, happended⟩ := hcreated _ _ _ _ _ hcreate
  obtain ⟨hnew', hadded⟩ := hdefinitions asked false
  exact ⟨by decide +kernel, hcreate, by decide +kernel, hid ▸ hnew, happended,
    hnative own (.perform .empty _), hadd, hnew', hadded f next hadd,
    hnative' ownPlot (.perform .empty (by simp))⟩

end Formulary
