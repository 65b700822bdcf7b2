import SignalBox.Reader

namespace SignalBox

structure Report where
  conditions : List Condition := []
  diagnostics : List Diagnostic := []
deriving DecidableEq

namespace Report

def errors (report : Report) : List Diagnostic :=
  report.diagnostics.filter Diagnostic.isError

def warnings (report : Report) : List Diagnostic :=
  report.diagnostics.filter fun d => !d.isError

/-- Nothing was left out for an error. -/
def isComplete (report : Report) : Bool :=
  report.errors.isEmpty

def isQuiet (report : Report) : Bool :=
  report.diagnostics.isEmpty

def unclassified (report : Report) : List Text :=
  (report.diagnostics.filter fun d => d.kind = .unclassifiedName).map Diagnostic.fragment

def equipment (report : Report) : List Condition :=
  report.conditions.flatMap Condition.equipment

def ofClause (clause : Nat) (report : Report) : Report :=
  { report with diagnostics := report.diagnostics.map (Diagnostic.ofClause clause) }

def concat (reports : List Report) : Report where
  conditions := reports.flatMap Report.conditions
  diagnostics := reports.flatMap Report.diagnostics

end Report

namespace Reader

/-- A failed reading has no conditions, and its error is its last diagnostic. -/
def report (r : Reader) (s : Text) : Report :=
  match r.readInto [] {} s with
  | (.ok conditions, log) => ⟨conditions, log⟩
  | (.error error, log) => ⟨[], log ++ [.ofError error]⟩

def reports (r : Reader) (formulas : List Text) : List Report :=
  formulas.map r.report

end Reader

end SignalBox
