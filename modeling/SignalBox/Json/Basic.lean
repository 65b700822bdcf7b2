import SignalBox.Json.Quoted

namespace SignalBox

/-! JSON as it is written: numbers and strings keep their spelling, members keep their order and
may repeat a key. Where a text stops being JSON, `missing` stands for the value that should come
next. -/

inductive Json where
  | null
  | bool (value : Bool)
  | number (lexeme : Text)
  | string (lexeme : Text)
  | array (elements : List Json)
  | object (members : List (Text × Json))
  | missing
deriving Repr

namespace Json

def ofText (s : Text) : Json :=
  .string (Quoted.encode s)

def ofNat (n : Nat) : Json :=
  .number (Nat.toDigits 10 n)

def member (key : String) (value : Json) : Text × Json :=
  (key.toList, value)

mutual

def isWhole : Json → Bool
  | .null => true
  | .bool _ => true
  | .number _ => true
  | .string _ => true
  | .array elements => areWhole elements
  | .object members => membersAreWhole members
  | .missing => false

def areWhole : List Json → Bool
  | [] => true
  | value :: rest => value.isWhole && areWhole rest

def membersAreWhole : List (Text × Json) → Bool
  | [] => true
  | (_, value) :: rest => value.isWhole && membersAreWhole rest

end

mutual

def render : Json → Text
  | .null => "null".toList
  | .bool true => "true".toList
  | .bool false => "false".toList
  | .number lexeme => lexeme
  | .string lexeme => '"' :: lexeme ++ ['"']
  | .array elements => '[' :: renderElements elements ++ [']']
  | .object members => '{' :: renderMembers members ++ ['}']
  | .missing => []

def renderElements : List Json → Text
  | [] => []
  | [value] => value.render
  | value :: next :: rest => value.render ++ ',' :: renderElements (next :: rest)

def renderMembers : List (Text × Json) → Text
  | [] => []
  | [(key, value)] => '"' :: key ++ '"' :: ':' :: value.render
  | (key, value) :: next :: rest =>
      '"' :: key ++ '"' :: ':' :: value.render ++ ',' :: renderMembers (next :: rest)

end

end Json

end SignalBox
