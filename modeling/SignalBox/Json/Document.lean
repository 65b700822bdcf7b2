import SignalBox.Json.Basic
import SignalBox.Json.Token

/-! Reading a JSON text. The reader goes from token to token and keeps the containers that are still
open. It always ends with a value: at the first token that does not fit, the place is marked as
`missing` and everything open is closed. -/

namespace SignalBox.Json

inductive Frame where
  | array (before : List Json)
  | object (before : List (Text × Json)) (key : Text)

inductive Progress where
  | beforeValue (stack : List Frame)
  | beforeFirst (stack : List Frame)
  /-- After the opening of an object or after a comma in it. -/
  | beforeKey (before : List (Text × Json)) (stack : List Frame)
  | afterKey (before : List (Text × Json)) (key : Text) (stack : List Frame)
  | afterValue (value : Json) (stack : List Frame)

namespace Progress

def begin? (stack : List Frame) : Token → Option Progress
  | .null => some (.afterValue .null stack)
  | .bool value => some (.afterValue (.bool value) stack)
  | .number lexeme => some (.afterValue (.number lexeme) stack)
  | .string lexeme => some (.afterValue (.string lexeme) stack)
  | .openArray => some (.beforeFirst stack)
  | .openObject => some (.beforeKey [] stack)
  | _ => none

def step? : Progress → Token → Option Progress
  | .beforeValue stack, token => begin? stack token
  | .beforeFirst stack, .closeArray => some (.afterValue (.array []) stack)
  | .beforeFirst stack, token => begin? (.array [] :: stack) token
  | .beforeKey [] stack, .closeObject => some (.afterValue (.object []) stack)
  | .beforeKey before stack, .string key => some (.afterKey before key stack)
  | .afterKey before key stack, .colon => some (.beforeValue (.object before key :: stack))
  | .afterValue value (.array before :: stack), .comma =>
      some (.beforeValue (.array (value :: before) :: stack))
  | .afterValue value (.array before :: stack), .closeArray =>
      some (.afterValue (.array (value :: before).reverse) stack)
  | .afterValue value (.object before key :: stack), .comma =>
      some (.beforeKey ((key, value) :: before) stack)
  | .afterValue value (.object before key :: stack), .closeObject =>
      some (.afterValue (.object ((key, value) :: before).reverse) stack)
  | _, _ => none

def close (value : Json) : List Frame → Json
  | [] => value
  | .array before :: stack => close (.array (value :: before).reverse) stack
  | .object before key :: stack => close (.object ((key, value) :: before).reverse) stack

def abandon : Progress → Json
  | .beforeValue stack => close .missing stack
  | .beforeFirst stack => close .missing (.array [] :: stack)
  | .beforeKey before stack => close .missing (.object before [] :: stack)
  | .afterKey before key stack => close .missing (.object before key :: stack)
  | .afterValue value [] => value
  | .afterValue value (.array before :: stack) => close .missing (.array (value :: before) :: stack)
  | .afterValue value (.object before key :: stack) =>
      close .missing (.object ((key, value) :: before) [] :: stack)

end Progress

structure Document where
  value : Json
  ended : Bool

def Document.ofTokens : Progress → List Token → Document
  | .afterValue value [], [] => ⟨value, true⟩
  | .afterValue value [], _ :: _ => ⟨value, false⟩
  | state, [] => ⟨state.abandon, false⟩
  | state, token :: rest =>
      match state.step? token with
      | none => ⟨state.abandon, false⟩
      | some next => ofTokens next rest

def Document.ofText (s : Text) : Document :=
  Document.ofTokens (.beforeValue []) (Token.row s)

end SignalBox.Json
