import SignalBox.Text.Basic

namespace SignalBox

/-! Why a formula is refused: a closing without its opening (or an empty decoration), or more
nesting than the limit allows. -/

inductive Formula.Error where
  | malformed (fragment delimiter : Text) (position : Nat)
  | tooDeep (limit : Nat) (fragment : Text)
deriving DecidableEq, Repr

def Formula.Error.fragment : Formula.Error → Text
  | .malformed fragment _ _ => fragment
  | .tooDeep _ fragment => fragment

def Formula.Error.position? : Formula.Error → Option Nat
  | .malformed _ _ position => some position
  | .tooDeep _ _ => none

def Formula.Error.message : Formula.Error → String
  | .malformed fragment delimiter position =>
      s!"Malformed expression at byte {position}: no opener for '{String.ofList delimiter}' in " ++
        s!"'{String.ofList fragment}'"
  | .tooDeep limit fragment =>
      s!"Expression nested deeper than {limit} levels: '{String.ofList fragment}'"

inductive Diagnostic.Severity where
  | warning
  | error
deriving DecidableEq, Repr

inductive Diagnostic.Kind where
  | malformed
  | tooDeep
  | unclassifiedName
  | detachedException
deriving DecidableEq, Repr

structure Diagnostic where
  kind : Diagnostic.Kind
  severity : Diagnostic.Severity
  message : String
  fragment : Text
  /-- Byte offset in the formula, or in the clause if there is one. -/
  position? : Option Nat := none
  clause? : Option Nat := none
deriving DecidableEq, Repr

namespace Diagnostic

def ofError (error : Formula.Error) : Diagnostic where
  kind :=
    match error with
    | .malformed .. => .malformed
    | .tooDeep .. => .tooDeep
  severity := .error
  message := error.message
  fragment := error.fragment
  position? := error.position?

def ofClause (clause : Nat) (d : Diagnostic) : Diagnostic :=
  { d with clause? := some clause }

def isError (d : Diagnostic) : Bool :=
  d.severity = .error

def Severity.word : Severity → String
  | .warning => "warning"
  | .error => "error"

def line (d : Diagnostic) : String :=
  match d.clause? with
  | some clause => s!"{d.severity.word} (clause {clause}): {d.message}"
  | none => s!"{d.severity.word}: {d.message}"

end Diagnostic

end SignalBox
