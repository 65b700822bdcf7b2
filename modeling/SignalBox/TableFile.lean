import SignalBox.DeviceTable.Yaml
import SignalBox.Text.Locate

namespace SignalBox

/-! Files with device tables. The extension of the path tells the format. What opens a file and what
finds the map in its content lies outside, with errors of its own. -/

inductive TableFile.Format where
  | yaml
  | json
deriving DecidableEq, Repr

structure TableFile.Source (ε δ : Type) where
  fetch : Text → Except ε Text
  /-- A map has each name once, and its entries come in the order in which it happens to be gone
  through. -/
  entries : TableFile.Format → Text → Except δ (List (Text × Category))

inductive TableFile.Fault (δ : Type) where
  | noMap (error : δ)
  | refused (error : Declaration.Error)
deriving DecidableEq, Repr

inductive TableFile.Error (ε δ : Type) where
  | unsupported (path : Text)
  | opening (error : ε)
  | content (format : TableFile.Format) (path : Text) (fault : TableFile.Fault δ)
deriving DecidableEq, Repr

namespace TableFile

variable {ε δ : Type}

def steps (path : Text) : List Text :=
  Text.splitOn ['/'] path

def name? (path : Text) : Option Text :=
  match ((steps path).filter fun step => !step.isEmpty && step ≠ ['.']).getLast? with
  | none => none
  | some step => if step = ['.', '.'] then none else some step

/-- What follows the last dot of the name, unless the name starts with that dot. -/
def extension? (path : Text) : Option Text :=
  (name? path).bind fun name =>
    (Text.cutLast? ['.'] name).bind fun x => if x.before = [] then none else some x.after

def Format.ofPath? (path : Text) : Option Format :=
  (extension? path).bind fun extension =>
    let extension := extension.lower
    if extension = "yaml".toList ∨ extension = "yml".toList then some .yaml
    else if extension = "json".toList then some .json
    else none

/-- The path only serves to name the file in an error. -/
def decode (source : Source ε δ) (format : Format) (path content : Text) :
    Except (Error ε δ) DeviceTable := do
  let entries ← (source.entries format content).mapError fun error =>
    .content format path (.noMap error)
  (DeviceTable.ofMap entries).mapError fun error => .content format path (.refused error)

/-- The format is settled before the file is opened. -/
def read (source : Source ε δ) (path : Text) : Except (Error ε δ) DeviceTable :=
  match Format.ofPath? path with
  | none => throw (.unsupported path)
  | some format => do
      let content ← (source.fetch path).mapError .opening
      decode source format path content

/-- The devices of later files win. -/
def readAll (source : Source ε δ) (paths : List Text) : Except (Error ε δ) DeviceTable :=
  paths.foldlM (fun table path => (read source path).map table.overlay) .empty

def entriesOfText : Format → Text → Json.Decoded (List (Text × Category))
  | .yaml => DeviceTable.entriesOfYamlText
  | .json => DeviceTable.entriesOfJsonText

end TableFile

end SignalBox
