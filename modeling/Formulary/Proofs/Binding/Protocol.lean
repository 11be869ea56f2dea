import Formulary.Binding.Basic
import Formulary.Proofs.Binding.Planned

/-! # What a provider is asked

Binding asks for the missing names of a plan in order, each once, and stops at the first
that is not created. The names in use may change with every answer, so those the plan
relies on are looked up again at the end.
-/

namespace Formulary

variable {σ ι : Type} {names : List Name}

/-- Why a reply creates nothing. -/
def Reply.refusal? : Reply ι → Option Text
  | .created _ => none
  | .declined => some (text "declined")
  | .failed reason => some reason

/-- The provider, which also notes every name it is asked for and its reply. -/
def Provider.noting (p : Provider σ ι) : Provider (σ × List (Name × Reply ι)) ι where
  ask name s := ((p.ask name s.1).1, (p.ask name s.1).2, s.2 ++ [(name, (p.ask name s.1).1)])
  live s := p.live s.1

namespace Binding

/-- The replies that gave these ids. -/
def granted (ids : List (Name × ι)) : List (Name × Reply ι) :=
  ids.map fun q => (q.1, .created q.2)

theorem map_fst_granted (ids : List (Name × ι)) :
    (granted ids).map Prod.fst = ids.map Prod.fst := by
  simp [granted]

theorem refusal?_of_mem_granted {ids : List (Name × ι)} {q : Name × Reply ι} (h : q ∈ granted ids) :
    q.2.refusal? = none := by
  obtain ⟨_, -, rfl⟩ := List.mem_map.mp h
  rfl

/-- How asking for names in order ends: every one is created, or the first that is not is the
last one asked for. -/
inductive Asked (names : List Name) (resolved : List (Name × ι)) :
    List (Name × Reply ι) → Except BindError (List (Name × ι)) → Prop
  | all {ids : List (Name × ι)} (hnames : ids.map Prod.fst = names) :
      Asked names resolved (granted ids) (.ok (resolved ++ ids))
  | refused {ids : List (Name × ι)} {name : Name} {rest : List Name} {reply : Reply ι}
      {reason : Text} (hnames : names = ids.map Prod.fst ++ name :: rest)
      (hreply : reply.refusal? = some reason) :
      Asked names resolved (granted ids ++ [(name, reply)])
        (.error (unresolved [name] ((resolved ++ ids).map Prod.fst) (some reason) name))

variable {name : Name} {id : ι} {reply : Reply ι} {reason : Text} {resolved : List (Name × ι)}
  {replies : List (Name × Reply ι)} {result : Except BindError (List (Name × ι))}

theorem Asked.cons (h : Asked names (resolved ++ [(name, id)]) replies result) :
    Asked (name :: names) resolved ((name, .created id) :: replies) result := by
  cases h with
  | @all ids hnames =>
    have hall : ((name, id) :: ids).map Prod.fst = name :: names := by simp [hnames]
    rw [List.append_assoc, List.singleton_append]
    exact .all hall
  | @refused ids bad rest _ _ hnames hreply =>
    have hsplit : name :: names = ((name, id) :: ids).map Prod.fst ++ bad :: rest := by
      simp [hnames]
    rw [List.append_assoc, List.singleton_append]
    exact .refused hsplit hreply

theorem asked_nil : Asked [] resolved [] (.ok resolved) := by
  have h : Asked [] resolved (granted []) (.ok (resolved ++ [])) := .all rfl
  rw [List.append_nil] at h
  exact h

theorem asked_first (h : reply.refusal? = some reason) : Asked (name :: names) resolved
    [(name, reply)] (.error (unresolved [name] (resolved.map Prod.fst) (some reason) name)) := by
  have hfirst : Asked (name :: names) resolved (granted [] ++ [(name, reply)])
      (.error (unresolved [name] ((resolved ++ []).map Prod.fst) (some reason) name)) :=
    .refused rfl h
  rw [List.append_nil] at hfirst
  exact hfirst

/-- Noting changes nothing, and the notes are of one run through the names. -/
theorem askAll_noting (p : Provider σ ι) (names : List Name) (resolved : List (Name × ι)) (s : σ)
    (noted : List (Name × Reply ι)) : ∃ replies,
      askAll p.noting resolved names (s, noted) = ((askAll p resolved names s).1,
        (askAll p resolved names s).2, noted ++ replies) ∧
      Asked names resolved replies (askAll p resolved names s).1 := by
  induction names generalizing resolved s noted with
  | nil => exact ⟨[], by simp [askAll], asked_nil⟩
  | cons name names ih =>
    cases hask : p.ask name s with
    | mk reply after =>
      cases reply with
      | created id =>
        obtain ⟨replies, hrun, hasked⟩ :=
          ih (resolved ++ [(name, id)]) after (noted ++ [(name, .created id)])
        refine ⟨(name, .created id) :: replies, ?_, ?_⟩
        · simpa [askAll, Provider.noting, hask] using hrun
        · simpa only [askAll, hask] using hasked.cons
      | declined =>
        refine ⟨[(name, .declined)], by simp [askAll, Provider.noting, hask], ?_⟩
        simpa only [askAll, hask] using asked_first rfl
      | failed reason =>
        refine ⟨[(name, .failed reason)], by simp [askAll, Provider.noting, hask], ?_⟩
        simpa only [askAll, hask] using asked_first rfl

/-! ### The replies and the result -/

theorem Asked.isPrefix (h : Asked names resolved replies result) :
    replies.map Prod.fst <+: names := by
  cases h with
  | all hnames =>
    refine ⟨[], ?_⟩
    rw [map_fst_granted, hnames, List.append_nil]
  | @refused ids name rest reply _ hnames =>
    refine ⟨rest, ?_⟩
    have hmap : (granted ids ++ [(name, reply)]).map Prod.fst = ids.map Prod.fst ++ [name] := by
      rw [List.map_append, map_fst_granted, List.map_singleton]
    rw [hnames, hmap, List.append_assoc, List.singleton_append]

theorem Asked.refusal?_of_mem_dropLast (h : Asked names resolved replies result) :
    ∀ q ∈ replies.dropLast, q.2.refusal? = none := by
  intro q hq
  cases h with
  | all => exact refusal?_of_mem_granted (List.dropLast_subset _ hq)
  | refused =>
    rw [List.dropLast_concat] at hq
    exact refusal?_of_mem_granted hq

/-- The first name that is not created is the one that is reported. -/
theorem Asked.of_refusal (h : Asked names resolved replies result)
    {earlier : List (Name × Reply ι)} (hlast : replies = earlier ++ [(name, reply)])
    (hreply : reply.refusal? = some reason) : result =
      .error (unresolved [name] (resolved.map Prod.fst ++ earlier.map Prod.fst) (some reason)
        name) := by
  cases h with
  | all =>
    have hmem : (name, reply) ∈ granted _ := hlast ▸ List.mem_append_right _ List.mem_cons_self
    have hnone := refusal?_of_mem_granted hmem
    rw [hreply] at hnone
    cases hnone
  | @refused ids _ _ _ reason' _ hreply' =>
    obtain ⟨rfl, hpair⟩ := List.append_inj' hlast rfl
    obtain ⟨rfl, rfl⟩ := Prod.mk.inj (List.cons.inj hpair).1
    obtain rfl : reason' = reason := Option.some.inj (hreply'.symm.trans hreply)
    rw [List.map_append, map_fst_granted]

/-- Without a refusal all names are created. -/
theorem Asked.of_created (h : Asked names resolved replies result)
    (hall : ∀ q ∈ replies, q.2.refusal? = none) :
    ∃ ids, ids.map Prod.fst = names ∧ result = .ok (resolved ++ ids) := by
  cases h with
  | all hnames => exact ⟨_, hnames, rfl⟩
  | refused _ hreply =>
    have hnone := hall _ (List.mem_append_right _ List.mem_cons_self)
    rw [hreply] at hnone
    cases hnone

theorem Asked.of_ok {ids : List (Name × ι)} (h : Asked names [] replies (.ok ids)) :
    ids.map Prod.fst = names ∧ replies = granted ids := by
  cases h with
  | all hnames => exact ⟨hnames, rfl⟩

/-! ### After the last reply -/

variable {r : Reading} {live after : LiveNames} {arities : Formula.Arities} {raw : Text} {q : Plan}

/-- What was in use, and is not after the last reply. -/
def lost (q : Plan) (live : LiveNames) : List Name := q.existing.filter fun n => !live.contains n

theorem lost_eq_nil : lost q live = [] ↔ ∀ n ∈ q.existing, live.contains n = true := by
  simp [lost]

/-- With every missing name created, only what was in use before can be lost. -/
theorem finish_of_created (h : plan r live arities raw = .ok q)
    (hids : resolved.map Prod.fst = q.missing) :
    finish q after resolved = match lost q after with
      | [] => .ok ⟨q, resolved⟩
      | culprit :: _ => .error (unresolved (lost q after) q.missing none culprit) := by
  obtain ⟨hmissing, hexisting, -⟩ := partition_of_plan h
  have hlost : q.dependencies.filter
      (fun d => !q.missing.contains d && !after.contains d) = lost q after := by
    rw [lost, hexisting, List.filter_filter]
    apply List.filter_congr
    intro d hd
    have hin : q.missing.contains d = !live.contains d := by
      rw [hmissing, Bool.eq_iff_iff, List.contains_iff_mem, List.mem_filter]
      simp [hd]
    rw [hin, Bool.not_not, Bool.and_comm]
  cases hl : lost q after with
  | nil => simp only [finish, hids, hlost, hl]
  | cons culprit rest => simp only [finish, hids, hlost, hl]

theorem finish_eq_ok {b : Bound ι} (h : plan r live arities raw = .ok q)
    (hids : resolved.map Prod.fst = q.missing) :
    finish q after resolved = .ok b ↔ lost q after = [] ∧ b = ⟨q, resolved⟩ := by
  rw [finish_of_created h hids]
  cases lost q after with
  | nil => simp [eq_comm]
  | cons culprit others => simp

/-- If the names in use are those of the plan, it is bound. -/
theorem finish_of_plan (h : plan r live arities raw = .ok q)
    (hids : resolved.map Prod.fst = q.missing) : finish q live resolved = .ok ⟨q, resolved⟩ := by
  refine (finish_eq_ok h hids).mpr ⟨lost_eq_nil.mpr fun n hn => ?_, rfl⟩
  rw [(partition_of_plan h).2.1] at hn
  exact (List.mem_filter.mp hn).2

/-- What is created and what was in use make up what the plan depends on. -/
theorem parts_of_plan (h : plan r live arities raw = .ok q) : q.missing.Nodup ∧
    q.missing.Disjoint q.existing ∧ (q.missing ++ q.existing).Perm q.dependencies := by
  obtain ⟨hmissing, hexisting, hnodup⟩ := partition_of_plan h
  rw [hmissing, hexisting]
  refine ⟨hnodup.filter _, fun d hd hd' => ?_, ?_⟩
  · have hlive := (List.mem_filter.mp hd).2
    simp [(List.mem_filter.mp hd').2] at hlive
  · exact List.perm_append_comm.trans (List.filter_append_perm _ _)

/-- What passes between binding and whoever creates the missing names, and how it ends. The names
asked for are the first of those missing, up to one that is refused, which alone is reported, with
those created before it. If all are created, binding succeeds just if what else the plan depends on
is still in use; otherwise that is reported. Success gives every created name its id. -/
structure Exchange (q : Plan) (after : LiveNames) (replies : List (Name × Reply ι))
    (result : Except BindError (Bound ι)) : Prop where
  distinct : q.missing.Nodup
  inOrder : replies.map Prod.fst <+: q.missing
  goesOn : ∀ reply ∈ replies.dropLast, reply.2.refusal? = none
  refused : ∀ earlier name reply reason, replies = earlier ++ [(name, reply)] →
    reply.refusal? = some reason → result =
      .error (.unresolved [name] (earlier.map Prod.fst) (some reason) (waysOut .parameter name))
  complete : (∀ reply ∈ replies, reply.2.refusal? = none) → replies.map Prod.fst = q.missing ∧
    ((∃ b, result = .ok b) ↔ ∀ n ∈ q.existing, after.contains n = true) ∧
    ∀ culprit others, lost q after = culprit :: others →
      result = .error (.unresolved (lost q after) q.missing none (waysOut .parameter culprit))
  bound : ∀ b, result = .ok b → b.plan = q ∧ b.created = q.missing ∧
    replies = b.resolved.map (fun row => (row.1, .created row.2)) ∧
    b.created.Disjoint q.existing ∧ (b.created ++ q.existing).Perm q.dependencies

theorem Asked.exchange {resolved : Except BindError (List (Name × ι))}
    (h : plan r live arities raw = .ok q) (hasked : Asked q.missing [] replies resolved) :
    Exchange q after replies (resolved >>= finish q after) := by
  obtain ⟨hnodup, hdisjoint, hperm⟩ := parts_of_plan h
  refine ⟨hnodup, hasked.isPrefix, hasked.refusal?_of_mem_dropLast, ?_, ?_, ?_⟩
  case refine_1 =>
    intro earlier name reply reason hlast hreply
    rw [hasked.of_refusal hlast hreply]
    rfl
  case refine_2 =>
    intro hall
    obtain ⟨ids, hids, rfl⟩ := hasked.of_created hall
    have hnames : replies.map Prod.fst = q.missing := by
      rw [(hasked.of_ok).2, map_fst_granted, (hasked.of_ok).1]
    have hresult : (Except.ok ([] ++ ids) >>= finish q after) = finish q after ids := rfl
    rw [hresult]
    refine ⟨hnames, ?_, fun culprit others hlost => ?_⟩
    · rw [← lost_eq_nil]
      simp only [finish_eq_ok h hids, exists_and_left, exists_eq, and_true]
    · rw [finish_of_created h hids, hlost]
      rfl
  case refine_3 =>
    intro b hb
    obtain ⟨ids, rfl, hfinish⟩ := ok_of_bind hb
    obtain ⟨hids, hgranted⟩ := hasked.of_ok
    obtain ⟨-, rfl⟩ := (finish_eq_ok h hids).mp hfinish
    have hcreated : (⟨q, ids⟩ : Bound ι).created = q.missing := hids
    rw [hcreated]
    exact ⟨rfl, rfl, hgranted, hdisjoint, hperm⟩

/-- Binding a plan with notes is binding it, and the notes are of one run through what is missing.
-/
theorem ofPlan_noting (p : Provider σ ι) (live : LiveNames) (q : Plan) (s : σ) :
    ∃ (replies : List (Name × Reply ι)) (resolved : Except BindError (List (Name × ι))) (s' : σ),
      Asked q.missing [] replies resolved ∧
      ofPlan (some p) live q s = (resolved >>= finish q (p.live s'), s') ∧
      ofPlan (some p.noting) live q (s, []) = (resolved >>= finish q (p.live s'), s', replies) := by
  obtain ⟨replies, hrun, hasked⟩ := askAll_noting p q.missing [] s []
  refine ⟨replies, _, (askAll p [] q.missing s).2, hasked, ?_, ?_⟩
  · simp only [ofPlan]
    rcases askAll p [] q.missing s with ⟨_ | ids, s'⟩ <;> rfl
  · simp only [ofPlan, hrun]
    rcases askAll p [] q.missing s with ⟨_ | ids, s'⟩ <;> rfl

end Binding

/-- The protocol of binding. Noting what is asked for changes nothing. Without a plan nothing is
asked for, with one the names are asked for as `Exchange` says, and without a provider the first
missing name is in the way of all. -/
theorem bind_protocol (r : Reading) (live : LiveNames) (arities : Formula.Arities) (raw : Text)
    (p : Provider σ ι) (s : σ) : ∃ result s' replies,
    bind r live arities (some p.noting) raw (s, []) = (result, s', replies) ∧
    bind r live arities (some p) raw s = (result, s') ∧
    match plan r live arities raw with
    | .error e => result = .error e ∧ replies = [] ∧ s' = s ∧
        bind r live arities (none : Option (Provider σ ι)) raw s = (.error e, s)
    | .ok q => Binding.Exchange q (p.live s') replies result ∧
        ∀ name others, q.missing = name :: others →
          bind r live arities (none : Option (Provider σ ι)) raw s =
            (.error (.unresolved q.missing [] (some (text "no auto-creation callback"))
              (waysOut .parameter name)), s) := by
  cases hplan : plan r live arities raw with
  | error e =>
    have hbind : ∀ {τ : Type} (provider : Option (Provider τ ι)) (s : τ),
        bind r live arities provider raw s = (.error e, s) := by
      intro τ provider s
      rw [bind, hplan]
    exact ⟨.error e, s, [], hbind _ _, hbind _ _, rfl, rfl, rfl, hbind _ _⟩
  | ok q =>
    have hbind : ∀ {τ : Type} (provider : Option (Provider τ ι)) (s : τ),
        bind r live arities provider raw s = Binding.ofPlan provider live q s := by
      intro τ provider s
      rw [bind, hplan]
    obtain ⟨replies, resolved, s', hasked, hp, hnoted⟩ := Binding.ofPlan_noting p live q s
    refine ⟨_, s', replies, (hbind _ _).trans hnoted, (hbind _ _).trans hp,
      hasked.exchange hplan, ?_⟩
    intro name others hmissing
    simp only [hbind, Binding.ofPlan, hmissing]
    rfl

end Formulary
