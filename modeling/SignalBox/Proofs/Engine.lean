import SignalBox.Engine

namespace SignalBox.Engine

variable {ε δ : Type} (e : Engine)

theorem parse_result (s : Text) :
    (e.parse s : Except (Failure ε δ) _ × _).1 = (e.reader.parse s).mapError .formula := by
  rw [parse]
  cases e.reader.parse s <;> rfl

theorem reports_eq (formulas : List Text) :
    e.reports formulas =
      (formulas.map e.reader.report, formulas.flatMap fun s => (e.report s).2) := by
  induction formulas with
  | nil => rfl
  | cons s formulas ih => rw [reports, ih, List.map_cons, List.flatMap_cons, report]

theorem mem_account_iff {subject : Subject} {s : Text} {report : Report} {event : Event} :
    event ∈ e.account subject s report ↔
      (∃ error, error ∈ report.errors ∧ event = rejected subject s error) ∨
      (e.tracing = true ∧ event =
        parsed subject s report.conditions.length (some report.diagnostics.length)) := by
  rw [account, List.mem_append, List.mem_map]
  simp only [eq_comm]
  cases e.tracing <;> simp

theorem tracing_of_account {subject : Subject} {s : Text} {report : Report} {event : Event}
    (told : event ∈ e.account subject s report) (level : event.level = .debug) :
    e.tracing = true := by
  rcases e.mem_account_iff.mp told with ⟨error, -, rfl⟩ | ⟨tracing, -⟩
  · cases level
  · exact tracing

theorem tracing_of_parse {s : Text} {event : Event}
    (told : event ∈ (e.parse s : Except (Failure ε δ) (List Condition) × List Event).2) :
    e.tracing = true := by
  rw [parse] at told
  cases outcome : e.reader.parse s with
  | error error =>
      rw [outcome] at told
      cases told
  | ok conditions =>
      rw [outcome] at told
      cases tracing : e.tracing with
      | true => rfl
      | false =>
          rw [tracing] at told
          cases told

theorem tracing_of_debug {s : Text} {formulas : List Text} {event : Event}
    (told : event ∈ (e.parse s : Except (Failure ε δ) (List Condition) × List Event).2 ∨
      event ∈ (e.reports formulas).2 ∨ event ∈ (e.routeLock s).2)
    (level : event.level = .debug) : e.tracing = true := by
  rcases told with parsed | reported | locked
  · exact e.tracing_of_parse parsed
  · rw [reports_eq] at reported
    obtain ⟨s, -, member⟩ := List.mem_flatMap.mp reported
    exact e.tracing_of_account member level
  · exact e.tracing_of_account locked level

end SignalBox.Engine
