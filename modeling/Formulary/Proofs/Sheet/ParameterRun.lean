import Formulary.Proofs.Sheet.Domain
import Formulary.Proofs.Sheet.ParameterBook
import Formulary.Proofs.Sheet.Scope

/-! # Requests to a parameter book

Whatever is asked of a parameter book, its names and ids stay distinct and each value is
finite and lies in its domain. A refused request leaves the book as it was, its counter
included. A book takes in what another book with distinct ids has saved, so one that is
saved and loaded again is not refused and is the same.
-/

namespace Formulary

open Keyed (takeIn takeIn_write)

namespace ParameterBook

variable {b b' : ParameterBook} {name : Name} {value : Double} {o : ParameterOptions}
  {p : Parameter} {l : List Parameter} {limit : Nat}

/-! ### Saved entries -/

theorem counterAfter_idFor (n : Nat) : SavedId.counterAfter (idFor n) = .ok (n + 1) :=
  SavedId.counterAfter_append (text "param") n

theorem entry?_saveEntry (p : Parameter) : entry? (saveEntry p) = some p := by
  obtain ⟨id, name, value, min, max, step, role, source⟩ := p
  cases role <;> rfl

theorem loadEntries_eq_takeIn (b : ParameterBook) (items : List Json) :
    let taken := takeIn Parameter.id entry? b.entries b.nextId items
    b.loadEntries items = (⟨taken.1, taken.2.1⟩, taken.2.2) := by
  induction items generalizing b with
  | nil => rfl
  | cons j rest ih =>
    rw [loadEntries, takeIn]
    cases entry? j with
    | none => rfl
    | some p =>
      dsimp only
      rw [put_eq_place]
      cases SavedId.counterAfter p.id with
      | error e => rfl
      | ok n => exact ih _

theorem loadEntries_save (hids : ((b.entries ++ l).map Parameter.id).Nodup)
    (hissued : ∀ p ∈ l, ∃ n < limit, p.id = idFor n) (hlimit : b.nextId ≤ limit) :
    ∃ m ≤ limit, b.nextId ≤ m ∧
      b.loadEntries (l.map saveEntry) = (⟨b.entries ++ l, m⟩, none) := by
  have hcount : ∀ p ∈ l, ∃ m ≤ limit, SavedId.counterAfter p.id = .ok m := fun p hp => by
    obtain ⟨n, hn, hid⟩ := hissued p hp
    exact ⟨n + 1, hn, hid ▸ counterAfter_idFor n⟩
  obtain ⟨m, hm, hle, htake⟩ := takeIn_write entry?_saveEntry hids hcount hlimit
  exact ⟨m, hm, hle, by rw [loadEntries_eq_takeIn, htake]⟩

/-- Any book takes in what a book with distinct ids has saved. -/
theorem Keyed.load_save_into (h : b.Keyed) (b' : ParameterBook) :
    ∃ m ≤ max b'.nextId b.nextId, b'.nextId ≤ m ∧ b'.load b.save = (⟨b.entries, m⟩, none) := by
  have hissued : ∀ p ∈ b.entries, ∃ n < max b'.nextId b.nextId, p.id = idFor n := fun p hp => by
    obtain ⟨n, hn, hid⟩ := h.issued p hp
    exact ⟨n, by omega, hid⟩
  exact loadEntries_save (b := b'.clear) h.ids hissued (Nat.le_max_left _ _)

theorem Keyed.load_save (h : b.Keyed) : b.load b.save = (b, none) := by
  obtain ⟨m, hm, hle, hload⟩ := h.load_save_into b
  rw [Nat.max_self] at hm
  rw [hload, Nat.le_antisymm hm hle]

/-! ### Requests -/

/-- What is asked of a parameter book. -/
inductive Request where
  | create (name : Name) (value : Double) (options : ParameterOptions)
  | createAuto (name : Name)
  | update (name : Name) (value : Double)
  | setRole (name : Name) (role : Option Text)
  | delete (name : Name)
  | clear
  | reload

inductive Refusal where
  | change (e : SheetError)
  | load (e : LoadError)
  deriving DecidableEq

/-- The book after a change, or as it was with the reason why nothing was changed. -/
def attempt (b : ParameterBook) : Except SheetError ParameterBook → ParameterBook × Option Refusal
  | .ok b' => (b', none)
  | .error e => (b, some (.change e))

def perform (b : ParameterBook) : Request → ParameterBook × Option Refusal
  | .create name value options => b.attempt ((b.create name value options).map Prod.snd)
  | .createAuto name => b.attempt ((b.createAuto name).map Prod.snd)
  | .update name value => b.attempt (b.update name value)
  | .setRole name role => b.attempt (b.setRole name role)
  | .delete name => (b.delete name, none)
  | .clear => (b.clear, none)
  | .reload => ((b.load b.save).1, (b.load b.save).2.map .load)

def run (requests : List Request) : ParameterBook :=
  requests.foldl (fun b request => (b.perform request).1) empty

/-- The domain and the step that are asked for are defined. -/
def Request.Defined : Request → Prop
  | .create _ _ o => o.min.isNan = false ∧ o.max.isNan = false ∧ o.step.isNan = false
  | _ => True

/-- Distinct keys, and values that are finite and in their domains. -/
structure Sound (b : ParameterBook) : Prop where
  keyed : b.Keyed
  valid : ∀ p ∈ b.entries, p.value.isFinite = true ∧ p.Valid

/-! ### Refusals -/

theorem attempt_of_refused {x : Except SheetError ParameterBook}
    (h : (b.attempt x).2 ≠ none) : (b.attempt x).1 = b := by
  cases x with
  | ok b' => exact absurd rfl h
  | error e => rfl

theorem Keyed.perform_reload (h : b.Keyed) : b.perform .reload = (b, none) := by
  rw [perform, h.load_save]
  rfl

/-- Only loading could stop midway, and what was saved is loaded in full. -/
theorem Keyed.perform_of_refused (h : b.Keyed) {request : Request}
    (hrefused : (b.perform request).2 ≠ none) : (b.perform request).1 = b := by
  cases request with
  | create name value options => exact attempt_of_refused hrefused
  | createAuto name => exact attempt_of_refused hrefused
  | update name value => exact attempt_of_refused hrefused
  | setRole name role => exact attempt_of_refused hrefused
  | delete name => exact absurd rfl hrefused
  | clear => exact absurd rfl hrefused
  | reload => rw [h.perform_reload]

/-! ### One request -/

theorem ok_of_check (h : check b name value o = .ok ()) :
    name ∉ b.names ∧ value.isFinite = true ∧ Double.lt o.max o.min = false ∧
      Double.le o.step Double.zero = false := by
  unfold check at h
  split at h
  case isTrue => cases h
  case isFalse hname =>
    split at h
    case isTrue => cases h
    case isFalse hfinite =>
      split at h
      case isTrue => cases h
      case isFalse hdomain =>
        split at h
        case isTrue => cases h
        case isFalse hstep =>
          exact ⟨fun hin => hname (contains_iff.mpr hin), by simpa using hfinite,
            by simpa using hdomain, by simpa using hstep⟩

/-- What was checked becomes a valid entry, unless the domain or the step is undefined. -/
theorem valid_entryFor (n : Nat) (hcheck : check b name value o = .ok ())
    (hmin : o.min.isNan = false) (hmax : o.max.isNan = false) (hstep : o.step.isNan = false) :
    (entryFor n name value o).value.isFinite = true ∧ (entryFor n name value o).Valid := by
  obtain ⟨-, hfinite, -, hpositive⟩ := ok_of_check hcheck
  have hmoves : Double.lt Double.zero o.step = true := by
    rw [Double.lt_eq rfl hstep, hpositive]
    rfl
  exact ⟨hfinite, .widened n name hmin hmax hmoves (Double.not_isNan_of_isFinite hfinite)⟩

theorem Sound.attempt (h : b.Sound) {x : Except SheetError ParameterBook}
    (hx : ∀ b', x = .ok b' → b'.Sound) : (b.attempt x).1.Sound := by
  cases x with
  | ok b' => exact hx b' rfl
  | error e => exact h

theorem Sound.create (h : b.Sound) (hmin : o.min.isNan = false) (hmax : o.max.isNan = false)
    (hstep : o.step.isNan = false) :
    (b.attempt ((b.create name value o).map Prod.snd)).1.Sound := by
  refine h.attempt fun b' hb' => ?_
  rw [h.keyed.create_eq] at hb'
  cases hcheck : check b name value o with
  | error e => simp [hcheck, Except.map] at hb'
  | ok u =>
    obtain rfl : b.extend name value o = b' := by simpa [hcheck, Except.map] using hb'
    refine ⟨h.keyed.extend (ok_of_check hcheck).1, fun p hp => ?_⟩
    rcases List.mem_append.mp hp with hp | hp
    · exact h.valid p hp
    · rw [List.mem_singleton.mp hp]
      exact valid_entryFor b.nextId hcheck hmin hmax hstep

/-- A change that keeps name and id keeps the book sound if it keeps the entry so. -/
theorem Sound.modify {f : Parameter → Parameter} (h : b.Sound) (hid : ∀ p, (f p).id = p.id)
    (hname : ∀ p, (f p).name = p.name)
    (hf : ∀ p ∈ b.entries, p.name = name → (f p).value.isFinite = true ∧ (f p).Valid) :
    (b.modify name f).Sound := by
  refine ⟨h.keyed.modify hid hname, fun p hp => ?_⟩
  rw [h.keyed.modify_entries hid] at hp
  obtain ⟨q, hq, rfl⟩ := List.mem_map.mp hp
  split
  case isTrue hqn => exact hf q hq hqn
  case isFalse => exact h.valid q hq

theorem Sound.update (h : b.Sound) : (b.attempt (b.update name value)).1.Sound := by
  refine h.attempt fun b' hb' => ?_
  obtain ⟨hfinite, rfl, hdomain⟩ := ok_of_update h.keyed hb'
  refine h.modify (fun _ => rfl) (fun _ => rfl) fun p hp hname => ⟨hfinite, ?_⟩
  obtain ⟨habove, hbelow⟩ := hdomain p hp hname
  exact ⟨habove, hbelow, (h.valid p hp).2.step⟩

theorem Sound.setRole (h : b.Sound) (role : Option Text) :
    (b.attempt (b.setRole name role)).1.Sound := by
  refine h.attempt fun b' hb' => ?_
  obtain ⟨-, -, hb'⟩ := ok_of_bind hb'
  obtain rfl := Except.ok.inj hb'
  exact h.modify (fun _ => rfl) (fun _ => rfl) fun p hp _ =>
    ⟨(h.valid p hp).1, (h.valid p hp).2.role rfl⟩

theorem Sound.delete (h : b.Sound) : (b.delete name).Sound := by
  refine ⟨h.keyed.delete, fun p hp => h.valid p ?_⟩
  rw [h.keyed.delete_entries] at hp
  exact (List.mem_filter.mp hp).1

theorem Sound.clear (h : b.Sound) : b.clear.Sound :=
  ⟨h.keyed.of_sublist (List.nil_sublist _) (Nat.le_refl _), by simp [ParameterBook.clear]⟩

theorem Sound.perform (h : b.Sound) {request : Request} (hr : request.Defined) :
    (b.perform request).1.Sound := by
  cases request with
  | create name value options => exact h.create hr.1 hr.2.1 hr.2.2
  | createAuto name => exact h.create (by decide) (by decide) (by decide)
  | update name value => exact h.update
  | setRole name role => exact h.setRole role
  | delete name => exact h.delete
  | clear => exact h.clear
  | reload =>
    rw [h.keyed.perform_reload]
    exact h

/-! ### Many requests -/

theorem sound_run (requests : List Request) (h : ∀ request ∈ requests, request.Defined) :
    (run requests).Sound := by
  have hempty : empty.Sound := ⟨keyed_empty, by simp [empty]⟩
  have hfold : ∀ b : ParameterBook, b.Sound →
      (requests.foldl (fun b request => (b.perform request).1) b).Sound := by
    induction requests with
    | nil => exact fun b hb => hb
    | cons request requests ih =>
      obtain ⟨hrequest, hrequests⟩ := List.forall_mem_cons.mp h
      exact fun b hb => ih hrequests _ (hb.perform hrequest)
  exact hfold empty hempty

/-- After any requests names and ids are distinct, each value is finite and in its domain, and each
step is above zero. A request that is refused then changes nothing, and the book saved and loaded
again is the book, with its entries and its scope. -/
theorem requests_keep (requests : List Request) (h : ∀ request ∈ requests, request.Defined) :
    let b := run requests
    b.names.Nodup ∧ (b.entries.map Parameter.id).Nodup ∧
      (∀ p ∈ b.entries, p.value.isFinite = true ∧ p.Valid) ∧
      (∀ request, (b.perform request).2 ≠ none → (b.perform request).1 = b) ∧
      b.perform .reload = (b, none) ∧ b.scope = b.entries.map fun p => (p.name, p.value) := by
  intro b
  have hb : b.Sound := sound_run requests h
  exact ⟨hb.keyed.names, hb.keyed.ids, hb.valid, fun _ => hb.keyed.perform_of_refused,
    hb.keyed.perform_reload, hb.keyed.scope_eq⟩

/-- The domain of `k` is widened to its value, and what lies outside it is refused. -/
theorem requests_keep_widened :
    let requests := [.create (text "k") (Double.ofInt 20) {}, .createAuto (text "a"),
      .delete (text "a"), .createAuto (text "b"), .update (text "k") (Double.ofInt 15)]
    let beyond := Request.update (text "k") (Double.ofInt 30)
    let b := run requests
    (∀ request ∈ requests, request.Defined) ∧
      b.entries.map (fun p => (p.id, p.value)) =
        [(text "param-1", Double.ofInt 15), (text "param-3", Double.ofInt 1)] ∧
      (b.perform beyond).2 = some (.change (.outOfDomain (text "k") (Double.ofInt 30)
        (Double.ofInt (-10)) (Double.ofInt 20))) ∧
      (b.perform beyond).1 = b ∧ b.perform .reload = (b, none) := by
  intro requests beyond b
  have husual : (Request.create (text "k") (Double.ofInt 20) {}).Defined :=
    ⟨by decide, by decide, by decide⟩
  have hdefined : ∀ request ∈ requests, request.Defined := by
    simpa [requests, Request.Defined] using husual
  have hrefused : (b.perform beyond).2 = some (.change (.outOfDomain (text "k") (Double.ofInt 30)
      (Double.ofInt (-10)) (Double.ofInt 20))) := by decide +kernel
  have hsome : (b.perform beyond).2 ≠ none := by
    rw [hrefused]
    exact Option.some_ne_none _
  obtain ⟨-, -, -, hkeeps, hreload, -⟩ := requests_keep requests hdefined
  exact ⟨hdefined, by decide +kernel, hrefused, hkeeps beyond hsome, hreload⟩

end ParameterBook

end Formulary
