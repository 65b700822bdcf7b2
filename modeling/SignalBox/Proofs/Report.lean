import SignalBox.Proofs.Reading
import SignalBox.Report

/-! A report holds what the reading alone comes to, and readings that share a log do not see it:
each ends as it would end by itself and adds its own warnings behind those of the others. -/

namespace SignalBox.Reader

open Formula

section Reports

variable {r : Reader} {s : Text} {error : Formula.Error}

theorem readInto_eq (r : Reader) (log : List Diagnostic) (context : Context) (s : Text) :
    r.readInto log context s =
      ((r.readInto [] context s).1, log ++ (r.readInto [] context s).2) := by
  obtain ⟨outcome, added, concludes, _⟩ := r.exists_concludes context s
  rw [concludes log, concludes []]
  rfl

theorem warns_readInto (r : Reader) (context : Context) (s : Text) :
    ∀ d, d ∈ (r.readInto [] context s).2 → d.isError = false ∧ d.clause? = none := by
  obtain ⟨outcome, added, concludes, _⟩ := r.exists_concludes context s
  rw [concludes []]
  exact concludes.warns

def outcomeFindings : Except Formula.Error (List Condition) → List Diagnostic
  | .ok _ => []
  | .error e => [.ofError e]

theorem report_eq (r : Reader) (s : Text) :
    r.report s =
      ⟨(r.parse s).toOption.getD [], (r.readInto [] {} s).2 ++ outcomeFindings (r.parse s)⟩ := by
  rw [report, parse]
  rcases r.readInto [] {} s with ⟨e | conditions, log⟩
  · rfl
  · exact congrArg (Report.mk conditions) (List.append_nil log).symm

theorem report_of_error (failed : r.parse s = .error error) :
    ∃ log, r.report s = ⟨[], log ++ [.ofError error]⟩ ∧ ∀ d, d ∈ log → d.isError = false := by
  refine ⟨(r.readInto [] {} s).2, ?_, fun d member => (r.warns_readInto {} s d member).1⟩
  rw [report_eq, failed]
  rfl

theorem errors_report (r : Reader) (s : Text) :
    (r.report s).errors = outcomeFindings (r.parse s) := by
  have quiet : (r.readInto [] {} s).2.filter Diagnostic.isError = [] := by
    rw [List.filter_eq_nil_iff]
    intro d member
    exact Bool.not_eq_true _ ▸ (r.warns_readInto {} s d member).1
  rw [report_eq, Report.errors, List.filter_append, quiet]
  cases r.parse s <;> rfl

end Reports

structure Call where
  station : UInt32 := 0
  partialLock : Bool := false
  formula : Text

def Call.context (call : Call) : Context where
  station := call.station
  partialLock := call.partialLock

/-- What a call comes to and finds when no other call came before it. -/
def alone (r : Reader) (call : Call) : Except Formula.Error (List Condition) × List Diagnostic :=
  r.readInto [] call.context call.formula

/-- Calls with one log: what each comes to, and the log behind it. -/
def session (r : Reader) (log : List Diagnostic) :
    List Call → List (Except Formula.Error (List Condition) × List Diagnostic)
  | [] => []
  | call :: rest =>
      let (outcome, later) := r.readInto log call.context call.formula
      (outcome, later) :: r.session later rest

theorem session_cons (r : Reader) (log : List Diagnostic) (call : Call) (rest : List Call) :
    r.session log (call :: rest) =
      ((r.alone call).1, log ++ (r.alone call).2) ::
        r.session (log ++ (r.alone call).2) rest := by
  rw [session, readInto_eq]
  rfl

theorem session_append (r : Reader) (log : List Diagnostic) (calls later : List Call) :
    r.session log (calls ++ later) =
      r.session log calls ++
        r.session (log ++ calls.flatMap fun c => (r.alone c).2) later := by
  induction calls generalizing log with
  | nil =>
      rw [List.flatMap_nil, List.append_nil]
      rfl
  | cons call calls ih =>
      rw [List.cons_append, session_cons, session_cons, ih, List.flatMap_cons, List.append_assoc]
      rfl

theorem length_session (r : Reader) (log : List Diagnostic) (calls : List Call) :
    (r.session log calls).length = calls.length := by
  induction calls generalizing log with
  | nil => rfl
  | cons call calls ih => rw [session_cons, List.length_cons, List.length_cons, ih]

theorem getElem?_session (r : Reader) (log : List Diagnostic) (before : List Call) (call : Call)
    (after : List Call) :
    (r.session log (before ++ call :: after))[before.length]? =
      some ((r.alone call).1,
        log ++ before.flatMap (fun c => (r.alone c).2) ++ (r.alone call).2) := by
  rw [session_append, session_cons, ← r.length_session log before,
    List.getElem?_append_right (Nat.le_refl _), Nat.sub_self]
  rfl

/-- A report has an error exactly when the reading fails: that error alone, at its end, and then no
conditions. Calls that share a log end as they would end alone, whatever the log holds and whether
or not the calls before them failed; each puts its own warnings behind the log and nothing else.
Reports of many formulas are the reports of each. -/
theorem readings_isolated (r : Reader) :
    (∀ s,
      ((∃ d, d ∈ (r.report s).diagnostics ∧ d.isError = true) ↔ ∃ e, r.parse s = .error e) ∧
      (∀ e, r.parse s = .error e →
        (r.report s).conditions = [] ∧ (r.report s).errors = [.ofError e] ∧
          (r.report s).diagnostics.getLast? = some (.ofError e)) ∧
      ∀ conditions, r.parse s = .ok conditions → (r.report s).conditions = conditions) ∧
    (∀ log before call after,
      (r.session log (before ++ call :: after))[before.length]? =
        some ((r.alone call).1,
          log ++ before.flatMap (fun c => (r.alone c).2) ++ (r.alone call).2)) ∧
    (∀ call d, d ∈ (r.alone call).2 → d.isError = false ∧ d.clause? = none) ∧
    ∀ (formulas : List Text) (i : Nat), (r.reports formulas)[i]? = formulas[i]?.map r.report := by
  refine ⟨?_, ?_, ?_, ?_⟩
  · intro s
    have errors := r.errors_report s
    refine ⟨?_, ?_, ?_⟩
    · have some_error : (∃ d, d ∈ (r.report s).diagnostics ∧ d.isError = true) ↔
          (r.report s).errors ≠ [] := by
        simp [Report.errors]
      rw [some_error, errors]
      cases r.parse s <;> simp [outcomeFindings]
    · intro e failed
      rw [errors, report_eq, failed]
      exact ⟨rfl, rfl, List.getLast?_concat⟩
    · intro conditions accepted
      rw [report_eq, accepted]
      rfl
  · exact r.getElem?_session
  · intro call
    exact r.warns_readInto call.context call.formula
  · intro formulas i
    exact List.getElem?_map

theorem readings_isolated_failing_midway :
    parse ⟨.empty, {}⟩ "A{B>}".toList = .error (.malformed "B>".toList ['>'] 3) ∧
      (report ⟨.empty, {}⟩ "A{B>}".toList).conditions = [] ∧
      (report ⟨.empty, {}⟩ "A{B>}".toList).errors =
        [.ofError (.malformed "B>".toList ['>'] 3)] ∧
      (report ⟨.empty, {}⟩ "9T".toList).conditions =
        [{ category := .track, station := 0, name := "9T".toList }] ∧
      (session ⟨.empty, {}⟩ [] [⟨0, false, "但A".toList⟩, ⟨0, true, "A{B>}".toList⟩,
          ⟨2, true, "C".toList⟩])[1]?.map Prod.snd =
        some ((alone ⟨.empty, {}⟩ ⟨0, false, "但A".toList⟩).2 ++ [unclassifiedName {} ['A']]) ∧
      (unclassifiedName {} ['A']).isError = false := by
  obtain ⟨reports, calls, warnings, -⟩ := readings_isolated ⟨.empty, {}⟩
  have failed : parse ⟨.empty, {}⟩ "A{B>}".toList = .error (.malformed "B>".toList ['>'] 3) :=
    Except.eq_error_of_match (by decide +kernel)
  have accepted : parse ⟨.empty, {}⟩ "9T".toList =
      .ok [{ category := .track, station := 0, name := "9T".toList }] :=
    Except.toOption_eq_some_iff.mp (by decide +kernel)
  have found : (alone ⟨.empty, {}⟩ ⟨0, true, "A{B>}".toList⟩).2 = [unclassifiedName {} ['A']] := by
    decide +kernel
  obtain ⟨-, ends, -⟩ := reports "A{B>}".toList
  have second := calls [] [⟨0, false, "但A".toList⟩] ⟨0, true, "A{B>}".toList⟩
    [⟨2, true, "C".toList⟩]
  refine ⟨failed, (ends _ failed).1, (ends _ failed).2.1, (reports _).2.2 _ accepted, ?_,
    (warnings ⟨0, true, "A{B>}".toList⟩ _ ?_).1⟩
  · rw [List.flatMap_singleton, found] at second
    exact congrArg (Option.map Prod.snd) second
  · rw [found]
    exact List.mem_singleton_self _

end SignalBox.Reader
