import SignalBox.DeviceTable.Json
import SignalBox.Yaml.FlatMap

namespace SignalBox.DeviceTable

open SignalBox.Json (Decoded)

def categoriesOf : List (Text × Text) → Decoded (List (Text × Category))
  | [] => pure []
  | (name, spelling) :: rest => do
      match Category.ofText? spelling with
      | none => throw (.refused .blankCategory)
      | some category =>
          let later ← categoriesOf rest
          pure ((name, category) :: later)

def mapOfFlatMap (map : Yaml.FlatMap) : Decoded (List (Text × Category)) := do
  let entries ← categoriesOf map.entries
  if map.complete then pure entries else throw .form

/-- The whole text is read before any name in the map is looked at. -/
def ofFlatMap (map : Yaml.FlatMap) : Decoded DeviceTable := do
  let entries ← categoriesOf map.entries
  if !map.complete then throw .form
  match ofMap entries with
  | .ok table => pure table
  | .error error => throw (.refused error)

def ofYamlText (s : Text) : Decoded DeviceTable :=
  ofFlatMap (Yaml.FlatMap.ofText s)

def entriesOfYamlText (s : Text) : Decoded (List (Text × Category)) :=
  mapOfFlatMap (Yaml.FlatMap.ofText s)

end SignalBox.DeviceTable
