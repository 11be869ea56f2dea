import Formulary.Calc.Arithmetic
import Formulary.Proofs.Eval.Resolution
import Formulary.Session.Dialogue

/-! # How lines are answered

Whatever a line asks for, a session answers it, and what fails is reported in words. One
thing ends a session: to evaluate a definition over which arithmetic stops, with a failure
that neither evaluation nor the session expects of it.
-/

namespace Formulary

variable {f : ReportFormat} {s : Sheet} {c : Command} {failure : Failure} {key : Text}
  {xs : List Double}

namespace Session

/-! ### Complaints -/

/-- The text reports a failure; a refusal may be reported as JSON. -/
def Complains (f : ReportFormat) (out : Text) : Prop :=
  text "Error: " <+: out ∨ f = .json ∧ ∃ x, out = (Outcome.refused x).report .json

theorem complains_complaint (message : Text) : Complains f (complaint message) := by
  refine Or.inl ⟨message ++ ['\n'], ?_⟩
  simp [complaint, line]

theorem prefix_of_refusal? {ms : Report.Members} {out : Text} (h : Report.refusal? ms = some out) :
    text "Error: " <+: out := by
  obtain ⟨suggestions, -, h⟩ := Option.bind_eq_some_iff.mp h
  obtain ⟨fixes, -, h⟩ := Option.bind_eq_some_iff.mp h
  rw [← Option.some.inj h, Report.line, List.append_assoc, List.append_assoc, List.append_assoc]
  exact List.prefix_append _ _

theorem complains_report (x : Refusal) : Complains f ((Outcome.refused x).report f) := by
  cases f with
  | json => exact Or.inr ⟨rfl, x, rfl⟩
  | human =>
    have hreport : Report.refusal? (Outcome.refused x).members =
        some ((Outcome.refused x).report .human) := by
      rw [Outcome.report, Option.some_get]
      rfl
    exact Or.inl (prefix_of_refusal? hreport)

theorem valueLine_eq_error {v : Except ComputeError Quantity} :
    valueLine v = .error failure ↔
      v = .error (.formula (.stopped failure)) ∧ failure.kind ≠ .value := by
  constructor
  · intro h
    unfold valueLine at h
    split at h
    · cases h
    · cases h
    · split at h
      · cases h
      · obtain rfl := Except.error.inj h
        exact ⟨rfl, ‹_›⟩
    · cases h
  · rintro ⟨rfl, hkind⟩
    simp only [valueLine, if_neg hkind]

end Session

section

variable [Arithmetic]

namespace Sheet

/-- Evaluating stops with a failure that is not about a value. -/
def Breaks (s : Sheet) (key : Text) (xs : List Double) (failure : Failure) : Prop :=
  s.evaluate key xs = .error (.formula (.stopped failure)) ∧ failure.kind ≠ .value

/-- What breaks is a definition, where arithmetic stops over it. -/
theorem Breaks.stops (h : s.Breaks key xs failure) :
    ∃ d scope, s.definitions.lookup? key = some d ∧ s.scopeFor d xs = .ok scope ∧
      s.repertoire.StopsFor d.rhs scope failure := by
  obtain ⟨he, -⟩ := h
  unfold evaluate at he
  split at he
  · rename_i d hd
    split at he
    · cases he
    · rename_i scope hscope
      obtain ⟨e, hv, heq⟩ := error_of_mapError he
      obtain rfl := ComputeError.formula.inj heq
      exact ⟨d, scope, hd, hscope, Repertoire.stopsFor_of_evaluate hv⟩
  · split at he
    · cases he
    · split at he <;> cases he

end Sheet

namespace Session

/-! ### Failures -/

/-- What a line asks for fails: a definition is refused, there is no such name, a word is no
number, or there is no value. -/
inductive Fails (s : Sheet) : Command → Prop
  | order {path : List Name} (h : s.order = .error path) : Fails s .order
  | argument {key word : Text} {words : List Text} (h : numbers words = .error word) :
      Fails s (.evaluate key words)
  | value {key : Text} {words : List Text} {xs : List Double} {e : ComputeError}
      (hwords : numbers words = .ok xs) (h : s.evaluate key xs = .error e) :
      Fails s (.evaluate key words)
  | number {name value : Text} (h : Numeral.double? value = none) : Fails s (.set name value)
  | set {name value : Text} {x : Double} {e : SheetError} (hvalue : Numeral.double? value = some x)
      (h : s.setValue name x = .error e) : Fails s (.set name value)
  | delete {key : Text} {e : SheetError} (h : s.delete key = .error e) : Fails s (.delete key)
  | absent {key : Text} {t : Sheet} (h : s.delete key = .ok (false, t)) : Fails s (.delete key)
  | toggle {key : Text} (h : (s.toggle key).1 = false) : Fails s (.toggle key)
  | drawOver {key axis : Text} (h : (s.setVariable key axis).1 = false) :
    Fails s (.drawOver key axis)
  | replace {definition : Text} {x : Refusal} (h : (s.enter definition true).1 = .refused x) :
      Fails s (.replace definition)
  | define {definition : Text} {x : Refusal} (h : (s.enter definition false).1 = .refused x) :
      Fails s (.define definition)

/-- A failure is reported, if the session goes on to an answer at all. -/
theorem Fails.complains {t : Turn} (h : Fails s c) (ht : run f s c = .ok t) :
    Complains f t.out := by
  cases h with
  | @order path h =>
    obtain rfl := Except.ok.inj ht
    have hout : orderLine s = complaint (BindError.cycle path).message := by
      rw [orderLine, h]
    exact hout ▸ complains_complaint _
  | argument h =>
    simp only [run, evaluate, h] at ht
    obtain rfl := Except.ok.inj ht
    exact complains_complaint _
  | @value key words xs e hwords h =>
    simp only [run, evaluate, hwords, h] at ht
    obtain ⟨out, hout, rfl⟩ := ok_of_map ht
    unfold valueLine at hout
    split at hout
    · cases ‹Except.error e = .ok _›
    · exact Except.ok.inj hout ▸ complains_complaint _
    · split at hout
      · exact Except.ok.inj hout ▸ complains_complaint _
      · cases hout
    · exact Except.ok.inj hout ▸ complains_complaint _
  | number h =>
    simp only [run, Session.set, h] at ht
    exact Except.ok.inj ht ▸ complains_complaint _
  | set hvalue h =>
    simp only [run, Session.set, hvalue, h] at ht
    exact Except.ok.inj ht ▸ complains_complaint _
  | delete h =>
    simp only [run, Session.delete, h] at ht
    exact Except.ok.inj ht ▸ complains_complaint _
  | absent h =>
    simp only [run, Session.delete, h] at ht
    exact Except.ok.inj ht ▸ complains_complaint _
  | toggle h =>
    simp only [run, Session.toggle, h] at ht
    exact Except.ok.inj ht ▸ complains_complaint _
  | drawOver h =>
    simp only [run, Session.drawOver, h] at ht
    exact Except.ok.inj ht ▸ complains_complaint _
  | replace h =>
    simp only [run, Session.enter, h] at ht
    exact Except.ok.inj ht ▸ complains_report _
  | define h =>
    simp only [run, Session.enter, h] at ht
    exact Except.ok.inj ht ▸ complains_report _

/-! ### Answers -/

theorem run_eq_error : run f s c = .error failure ↔
    ∃ key words xs, c = .evaluate key words ∧ numbers words = .ok xs ∧ s.Breaks key xs failure := by
  constructor
  · intro h
    cases c with
    | evaluate key words =>
      simp only [run, evaluate] at h
      cases hwords : numbers words with
      | error word =>
        rw [hwords] at h
        cases h
      | ok xs =>
        rw [hwords] at h
        exact ⟨key, words, xs, rfl, hwords, valueLine_eq_error.mp (error_of_map h)⟩
    | _ => cases h
  · rintro ⟨key, words, xs, rfl, hwords, hbreaks⟩
    simp only [run, evaluate, hwords, valueLine_eq_error.mpr hbreaks]
    rfl

/-- Only leaving ends a session with its answer. -/
theorem goesOn_of_run {t : Turn} (h : run f s c = .ok t) (hc : c ≠ .leave) : t.goesOn = true := by
  cases c with
  | leave => exact absurd rfl hc
  | evaluate key words =>
    simp only [run, evaluate] at h
    split at h
    · rw [← Except.ok.inj h]
    · obtain ⟨_, -, rfl⟩ := ok_of_map h
      rfl
  | set name value =>
    rw [← Except.ok.inj h, Session.set]
    split
    · rfl
    · split <;> rfl
  | delete key =>
    rw [← Except.ok.inj h, Session.delete]
    split <;> rfl
  | _ =>
    obtain rfl := Except.ok.inj h
    rfl

end Session

namespace Dialogue

variable {line : Text} {lines : List Text} {s' : Sheet}

theorem hear_eq_error : hear f s line = .error failure ↔
    ∃ c, Command.ofLine? (Text.strip line) = some c ∧ Session.run f s c = .error failure := by
  unfold hear
  cases Command.ofLine? (Text.strip line) with
  | none => simp
  | some c =>
    constructor
    · exact fun h => ⟨c, rfl, error_of_map h⟩
    · rintro ⟨c', hc, h⟩
      obtain rfl := Option.some.inj hc
      simp only [h]
      rfl

theorem complains_of_hear {t : Turn} (hc : Command.ofLine? (Text.strip line) = some c)
    (hfails : Session.Fails s c) (h : hear f s line = .ok t) : Session.Complains f t.out := by
  simp only [hear, hc] at h
  obtain ⟨t', ht', rfl⟩ := ok_of_map h
  have hgo : t'.goesOn = true := Session.goesOn_of_run ht' (by rintro rfl; cases hfails)
  simpa only [hgo, if_true] using hfails.complains ht'

/-! ### Whole dialogues -/

/-- The lines are answered one after the other, the session goes on, and this is the sheet then. -/
inductive Leads (f : ReportFormat) : Sheet → List Text → Sheet → Prop
  | nil {s : Sheet} : Leads f s [] s
  | cons {s s' : Sheet} {line : Text} {lines : List Text} {t : Turn} (h : hear f s line = .ok t)
      (hgo : t.goesOn = true) (hrest : Leads f t.sheet lines s') : Leads f s (line :: lines) s'

/-- A dialogue breaks off at a line just if the lines before lead to a sheet on which it does. -/
theorem converse_eq_error : converse f s lines = .error failure ↔
    ∃ before line after s', lines = before ++ line :: after ∧ Leads f s before s' ∧
      hear f s' line = .error failure := by
  induction lines generalizing s with
  | nil => simp [converse]
  | cons line lines ih =>
    rw [converse]
    constructor
    · intro h
      rcases error_of_bind h with hfirst | ⟨t, hfirst, h⟩
      · exact ⟨[], line, lines, s, rfl, .nil, hfirst⟩
      split at h
      · rcases error_of_bind h with hrest | ⟨_, -, h⟩
        · obtain ⟨before, l, after, s', rfl, hleads, hl⟩ := ih.mp hrest
          exact ⟨line :: before, l, after, s', rfl, .cons hfirst ‹_› hleads, hl⟩
        · cases h
      · cases h
    · rintro ⟨before, l, after, s', hlines, hleads, hl⟩
      cases hleads with
      | nil =>
        obtain ⟨rfl, -⟩ := List.cons.inj hlines
        rw [hl]
        rfl
      | cons hfirst hgo hrest =>
        obtain ⟨rfl, rfl⟩ := List.cons.inj hlines
        have hend := ih.mpr ⟨_, l, after, s', rfl, hrest, hl⟩
        simp only [hfirst, hgo, hend, if_true, Bind.bind, Except.bind]

/-- Every line on every sheet is answered, unless it evaluates a definition and arithmetic stops
over it with a failure that is not about a value; and a dialogue breaks off just where such a line
comes. Whatever else fails is reported. -/
theorem hear_answers (f : ReportFormat) (s : Sheet) (line : Text) :
    (∀ failure, hear f s line = .error failure ↔ ∃ key words xs,
      Command.ofLine? (Text.strip line) = some (.evaluate key words) ∧
        Session.numbers words = .ok xs ∧ s.Breaks key xs failure) ∧
    (∀ key xs failure, s.Breaks key xs failure → ∃ d scope,
      s.definitions.lookup? key = some d ∧ s.scopeFor d xs = .ok scope ∧
        s.repertoire.StopsFor d.rhs scope failure) ∧
    (∀ c, Command.ofLine? (Text.strip line) = some c → Session.Fails s c →
      ∀ t, hear f s line = .ok t → Session.Complains f t.out) ∧
    ∀ lines failure, converse f s lines = .error failure ↔ ∃ before line after s',
      lines = before ++ line :: after ∧ Leads f s before s' ∧ hear f s' line = .error failure := by
  refine ⟨fun failure => ?_, fun _ _ _ h => h.stops,
    fun _ hc hfails _ h => complains_of_hear hc hfails h, fun _ _ => converse_eq_error⟩
  rw [hear_eq_error]
  constructor
  · rintro ⟨c, hc, h⟩
    obtain ⟨key, words, xs, rfl, hwords, hbreaks⟩ := Session.run_eq_error.mp h
    exact ⟨key, words, xs, hc, hwords, hbreaks⟩
  · rintro ⟨key, words, xs, hc, hwords, hbreaks⟩
    exact ⟨_, hc, Session.run_eq_error.mpr ⟨key, words, xs, rfl, hwords, hbreaks⟩⟩

end Dialogue

end

namespace Dialogue

/-- A remainder by zero ends the session. -/
theorem converse_breaks_on_remainder :
    converse .human (.empty {}) [text "f(x) = mod(1,x)", text "eval f 0"] =
      .error Fault.divisionByZero.failure := by
  decide +kernel

theorem hear_answers_for_quotient :
    let s := (Session.enter .human (.empty {}) (text "f(x) = 1/x") false).sheet
    ∃ t, hear .human s (text "eval f 0") = .ok t ∧ Session.Complains .human t.out := by
  intro s
  have hline : Command.ofLine? (Text.strip (text "eval f 0")) =
      some (.evaluate (text "f") [text "0"]) := by
    decide +kernel
  have hwords : Session.numbers [text "0"] = .ok [.zero] := by decide +kernel
  have hvalue : s.evaluate (text "f") [.zero] = .error (.formula (.singular (text "1/x"))) := by
    decide +kernel
  obtain ⟨herror, -, hreport, -⟩ := hear_answers .human s (text "eval f 0")
  cases hrun : hear .human s (text "eval f 0") with
  | error failure =>
    obtain ⟨key, words, xs, hc, hxs, hbreaks, -⟩ := (herror failure).mp hrun
    obtain ⟨rfl, rfl⟩ := Command.evaluate.inj (Option.some.inj (hline.symm.trans hc))
    obtain rfl := Except.ok.inj (hwords.symm.trans hxs)
    rw [hvalue] at hbreaks
    cases hbreaks
  | ok t => exact ⟨t, rfl, hreport _ hline (.value hwords hvalue) t hrun⟩

end Dialogue

end Formulary
