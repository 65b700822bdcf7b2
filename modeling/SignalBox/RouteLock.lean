import SignalBox.Report

namespace SignalBox

/-! A route lock is a row of parenthesised clauses. Each clause is a formula of its own, so a fault
in one leaves the others as they are. -/

namespace RouteLock

def separator : Text := [')', '(']

def looseSeparator : Text := [')', ' ', '(']

/-- The parentheses around all clauses go together or not at all. -/
def clauses (s : Text) : List Text :=
  let body := (Text.unwrap? ['('] [')'] s.trim).getD s.trim
  let tight := separator.intercalate (Text.splitOn looseSeparator body)
  (Text.splitOn separator tight).filter fun clause => !clause.isBlank

end RouteLock

/-- Goes on with the reading of one more clause. A clause that is refused adds its error and no
conditions. -/
def Report.addClause (report : Report) (index : Nat) :
    Except Formula.Error (List Condition) × List Diagnostic → Report
  | (.ok conditions, log) =>
      { conditions := report.conditions ++ conditions
        diagnostics := report.diagnostics ++ log.map (Diagnostic.ofClause index) }
  | (.error error, log) =>
      { report with
        diagnostics := report.diagnostics ++
          (log ++ [Diagnostic.ofError error]).map (Diagnostic.ofClause index) }

def Reader.routeLock (r : Reader) (s : Text) : Report :=
  (RouteLock.clauses s).zipIdx.foldl
    (fun report (clause, index) => report.addClause index (r.readInto [] {} clause)) {}

end SignalBox
