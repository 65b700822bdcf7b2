import SignalBox.Engine

namespace SignalBox

/-! What an engine is built from: files with device tables, declarations that go over them, and the
options of its readings. -/

structure Config where
  tableFiles : List Text := []
  declarations : List (Text × Text) := []
  options : Reader.Options := {}
  tracing : Bool := false
deriving DecidableEq, Repr

namespace Config

variable {ε δ : Type}

def check (config : Config) : Except Fault Unit :=
  if config.options.depthLimit = 0 then throw .noDepth
  else if config.options.timerSuffix.isBlank then throw .blankSuffix
  else pure ()

def engine (config : Config) (source : TableFile.Source ε δ) : Except (Failure ε δ) Engine := do
  config.check.mapError .config
  let fromFiles ← (TableFile.readAll source config.tableFiles).mapError .tableFile
  let declared ← (DeviceTable.ofSpelled config.declarations).mapError .declaration
  pure {
    devices := fromFiles.overlay declared
    options := config.options
    tracing := config.tracing }

end Config

end SignalBox
