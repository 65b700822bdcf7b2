import SignalBox.Condition.Json
import SignalBox.RouteLock

namespace SignalBox

def Diagnostic.Kind.word : Diagnostic.Kind → String
  | .malformed => "malformed_expression"
  | .tooDeep => "expression_too_deep"
  | .unclassifiedName => "unclassified_leaf"
  | .detachedException => "detached_continuation"

def Json.ofString (s : String) : Json :=
  .ofText s.toList

def Json.optionalNat (key : String) : Option Nat → List (Text × Json)
  | none => []
  | some n => [Json.member key (.ofNat n)]

def Diagnostic.toJson (d : Diagnostic) : Json :=
  .object
    ([Json.member "kind" (.ofString d.kind.word),
      Json.member "severity" (.ofString d.severity.word),
      Json.member "message" (.ofString d.message),
      Json.member "fragment" (.ofText d.fragment)] ++
    Json.optionalNat "position" d.position? ++
    Json.optionalNat "clause" d.clause?)

def Report.toJson (report : Report) : Json :=
  .object [
    Json.member "nodes" (.array (report.conditions.map Condition.toJson)),
    Json.member "diagnostics" (.array (report.diagnostics.map Diagnostic.toJson))]

end SignalBox
