import SignalBox.Reader
import SignalBox.TableFile

namespace SignalBox

inductive Config.Fault where
  | noDepth
  | blankSuffix
deriving DecidableEq, Repr

def Config.Fault.message : Config.Fault → String
  | .noDepth => "parser.max_depth must be at least 1"
  | .blankSuffix => "parser.seconds_suffix must not be empty"

inductive Failure (ε δ : Type) where
  | config (fault : Config.Fault)
  | tableFile (error : TableFile.Error ε δ)
  | declaration (error : Declaration.Error)
  | formula (error : Formula.Error)
deriving DecidableEq, Repr

/-- Faults in the content of a file are told by their cause alone. -/
def Failure.message? [ToString ε] : Failure ε δ → Option String
  | .config fault => some s!"Configuration error: {fault.message}"
  | .tableFile (.unsupported path) =>
      some s!"Unsupported name table format: {String.ofList path}"
  | .tableFile (.opening error) => some s!"I/O error: {error}"
  | .tableFile (.content ..) => none
  | .declaration error => some s!"Name table error: {error.message}"
  | .formula error => some s!"Parser error: {error.message}"

end SignalBox
