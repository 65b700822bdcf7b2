import SignalBox.DeviceTable
import SignalBox.Json.Document

/-! Decoding values from JSON. A decoder goes through the value in the order in which it is written,
so the first fault in the text is the one reported. -/

namespace SignalBox.Json

/-- A value either does not have the form that is asked for or is refused for what it declares. -/
inductive Fault where
  | form
  | refused (error : Declaration.Error)
deriving DecidableEq, Repr

def Fault.cause? : Fault → Option String
  | .form => none
  | .refused error => some error.message

abbrev Decoded := Except Fault

/-- How many containers may be open around the innermost value. Values that are passed over do not
count. -/
def nestingLimit : Nat := 127

def enter (room : Nat) : Decoded Nat :=
  match room with
  | 0 => throw .form
  | room + 1 => pure room

def decodeLexeme (lexeme : Text) : Decoded Text :=
  match Quoted.decode? lexeme with
  | some s => pure s
  | none => throw .form

def decodeText : Json → Decoded Text
  | .string lexeme => decodeLexeme lexeme
  | _ => throw .form

def decodeBool : Json → Decoded Bool
  | .bool value => pure value
  | _ => throw .form

def decodeNat (bound : Nat) : Json → Decoded Nat
  | .number lexeme =>
      let n := Nat.ofDigitChars 10 lexeme 0
      if lexeme.all Char.isDigit ∧ n < bound then pure n else throw .form
  | _ => throw .form

def decodeCategory (value : Json) : Decoded Category := do
  match Category.ofText? (← decodeText value) with
  | some category => pure category
  | none => throw (.refused .blankCategory)

def passOver (value : Json) : Decoded Unit :=
  if value.isWhole then pure () else throw .form

/-- Decodes a whole text; what follows the value is looked at last. -/
def decode (decoder : Json → Decoded α) (s : Text) : Decoded α := do
  let document := Document.ofText s
  let a ← decoder document.value
  if document.ended then pure a else throw .form

end SignalBox.Json
