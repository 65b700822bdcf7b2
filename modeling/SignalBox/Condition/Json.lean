import SignalBox.Condition
import SignalBox.Json.Decode

/-! Conditions in JSON: one object with fixed fields each, or an array with the fields in their
order. Only the children may be left out. -/

namespace SignalBox.Condition

open SignalBox.Json (Decoded)

inductive Field where
  | type
  | station
  | name
  | teihan
  | sokatsu
  | kata
  | execute
deriving DecidableEq, Repr

def Field.key : Field → Text
  | .type => "type".toList
  | .station => "station".toList
  | .name => "name".toList
  | .teihan => "teihan".toList
  | .sokatsu => "sokatsu".toList
  | .kata => "kata".toList
  | .execute => "execute".toList

def Field.all : List Field :=
  [.type, .station, .name, .teihan, .sokatsu, .kata, .execute]

def Field.ofKey? (key : Text) : Option Field :=
  Field.all.find? fun field => field.key = key

mutual

def toJson : Condition → Json
  | ⟨category, station, name, reverse, summary, partialLock, children⟩ =>
      .object
        ([(Field.type.key, .ofText category.spelling),
          (Field.station.key, .ofNat station.toNat),
          (Field.name.key, .ofText name),
          (Field.teihan.key, .bool reverse),
          (Field.sokatsu.key, .bool summary),
          (Field.kata.key, .bool partialLock)] ++
        match children with
        | [] => []
        | first :: rest => [(Field.execute.key, .array (first.toJson :: forestToJson rest))])

def forestToJson : List Condition → List Json
  | [] => []
  | c :: rest => c.toJson :: forestToJson rest

end

structure Draft where
  category? : Option Category := none
  station? : Option UInt32 := none
  name? : Option Text := none
  reverse? : Option Bool := none
  summary? : Option Bool := none
  partialLock? : Option Bool := none
  children? : Option (List Condition) := none

def Draft.has (draft : Draft) : Field → Bool
  | .type => draft.category?.isSome
  | .station => draft.station?.isSome
  | .name => draft.name?.isSome
  | .teihan => draft.reverse?.isSome
  | .sokatsu => draft.summary?.isSome
  | .kata => draft.partialLock?.isSome
  | .execute => draft.children?.isSome

def Draft.finish (draft : Draft) : Decoded Condition :=
  match draft with
  | ⟨some category, some station, some name, some reverse, some summary, some partialLock,
      children?⟩ =>
      pure ⟨category, station, name, reverse, summary, partialLock, children?.getD []⟩
  | _ => throw .form

mutual

def ofJson (room : Nat) : Json → Decoded Condition
  | .object members => do
      let draft ← ofMembers (← Json.enter room) {} members
      draft.finish
  | .array elements => do
      let draft ← ofElements (← Json.enter room) {} Field.all elements
      draft.finish
  | _ => throw .form

def ofMembers (room : Nat) (draft : Draft) : List (Text × Json) → Decoded Draft
  | [] => pure draft
  | (lexeme, value) :: rest => do
      match Field.ofKey? (← Json.decodeLexeme lexeme) with
      | none => Json.passOver value
                ofMembers room draft rest
      | some field =>
          if draft.has field then throw .form
          ofMembers room (← ofField room draft field value) rest

def ofElements (room : Nat) (draft : Draft) : List Field → List Json → Decoded Draft
  | _, [] => pure draft
  | [], _ :: _ => throw .form
  | field :: fields, value :: rest => do
      ofElements room (← ofField room draft field value) fields rest

def ofField (room : Nat) (draft : Draft) (field : Field) (value : Json) : Decoded Draft :=
  match field with
  | .type => do pure { draft with category? := some (← Json.decodeCategory value) }
  | .station => do
      let n ← Json.decodeNat UInt32.size value
      pure { draft with station? := some (UInt32.ofNat n) }
  | .name => do pure { draft with name? := some (← Json.decodeText value) }
  | .teihan => do pure { draft with reverse? := some (← Json.decodeBool value) }
  | .sokatsu => do pure { draft with summary? := some (← Json.decodeBool value) }
  | .kata => do pure { draft with partialLock? := some (← Json.decodeBool value) }
  | .execute =>
      match value with
      | .array elements => do
          pure { draft with children? := some (← ofForest (← Json.enter room) elements) }
      | _ => throw .form

def ofForest (room : Nat) : List Json → Decoded (List Condition)
  | [] => pure []
  | value :: rest => do
      let c ← ofJson room value
      let later ← ofForest room rest
      pure (c :: later)

end

def ofText (s : Text) : Decoded Condition :=
  Json.decode (ofJson Json.nestingLimit) s

end SignalBox.Condition
