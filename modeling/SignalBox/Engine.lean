import SignalBox.Failure
import SignalBox.RouteLock

namespace SignalBox

/-! An engine reads formulas over its device table, and tells of each reading: of every error, and
with tracing also of what came through. -/

inductive Engine.Level where
  | warning
  | debug
deriving DecidableEq, Repr

inductive Engine.Subject where
  | expression
  | routeLock
deriving DecidableEq, Repr

def Engine.Subject.words : Engine.Subject → String
  | .expression => "condition expression"
  | .routeLock => "route lock"

structure Engine.Event where
  level : Engine.Level
  message : String
  formula : Text
  conditions? : Option Nat := none
  diagnostics? : Option Nat := none
deriving DecidableEq, Repr

structure Engine where
  devices : DeviceTable
  options : Reader.Options
  tracing : Bool := false
deriving DecidableEq

namespace Engine

variable {ε δ : Type}

def reader (e : Engine) : Reader :=
  ⟨e.devices, e.options⟩

def rejected (subject : Subject) (s : Text) (error : Diagnostic) : Event where
  level := .warning
  message := s!"{subject.words} rejected: {error.line}"
  formula := s

def parsed (subject : Subject) (s : Text) (conditions : Nat) (diagnostics? : Option Nat) :
    Event where
  level := .debug
  message := s!"parsed {subject.words}"
  formula := s
  conditions? := some conditions
  diagnostics? := diagnostics?

/-- An error is the caller's to tell. -/
def parse (e : Engine) (s : Text) : Except (Failure ε δ) (List Condition) × List Event :=
  match e.reader.parse s with
  | .error error => (.error (.formula error), [])
  | .ok conditions =>
      (.ok conditions,
        if e.tracing then [parsed .expression s conditions.length none] else [])

def account (e : Engine) (subject : Subject) (s : Text) (report : Report) : List Event :=
  report.errors.map (rejected subject s) ++
    if e.tracing then
      [parsed subject s report.conditions.length (some report.diagnostics.length)]
    else []

def report (e : Engine) (s : Text) : Report × List Event :=
  let report := e.reader.report s
  (report, e.account .expression s report)

def routeLock (e : Engine) (s : Text) : Report × List Event :=
  let report := e.reader.routeLock s
  (report, e.account .routeLock s report)

def reports (e : Engine) : List Text → List Report × List Event
  | [] => ([], [])
  | s :: rest =>
      let first := e.report s
      let later := e.reports rest
      (first.1 :: later.1, first.2 ++ later.2)

end Engine

end SignalBox
