import SignalBox.Json.Decode

/-! Device tables in JSON: an object from names to categories. Of several members with one key the
last holds. -/

namespace SignalBox.DeviceTable

open SignalBox.Json (Decoded)

def lastOfEach : List (Text × Category) → List (Text × Category)
  | [] => []
  | (name, category) :: rest =>
      if rest.any fun later => later.1 = name then lastOfEach rest
      else (name, category) :: lastOfEach rest

/-- The table that a map of names to categories declares. A map has no order of its own: if several
of its entries are refused, any of them may be the one that is met first and told. -/
def ofMap (entries : List (Text × Category)) : Except Declaration.Error DeviceTable :=
  (lastOfEach entries).foldlM (fun table (name, category) =>
    (Device.declare name category).map table.insert) empty

def toJson (table : DeviceTable) : Json :=
  .object (table.devices.map fun d =>
    (Json.Quoted.encode d.name, .ofText d.category.spelling))

def entriesOfJson : List (Text × Json) → Decoded (List (Text × Category))
  | [] => pure []
  | (lexeme, value) :: rest => do
      let name ← Json.decodeLexeme lexeme
      let category ← Json.decodeCategory value
      let later ← entriesOfJson rest
      pure ((name, category) :: later)

def mapOfJson : Json → Decoded (List (Text × Category))
  | .object members => entriesOfJson members
  | _ => throw .form

/-- The whole map is read before any name in it is looked at. -/
def ofJson : Json → Decoded DeviceTable
  | .object members => do
      let entries ← entriesOfJson members
      match ofMap entries with
      | .ok table => pure table
      | .error error => throw (.refused error)
  | _ => throw .form

def ofJsonText (s : Text) : Decoded DeviceTable :=
  Json.decode ofJson s

/-- The map in a whole text. What follows it is looked at after the names in it. -/
def entriesOfJsonText (s : Text) : Decoded (List (Text × Category)) := do
  let document := Json.Document.ofText s
  let entries ← mapOfJson document.value
  if document.ended then pure entries
  else
    match ofMap entries with
    | .ok _ => throw .form
    | .error error => throw (.refused error)

end SignalBox.DeviceTable
