import SignalBox.Config

/-! Configurations in JSON. Every field may be left out; an array gives the fields in their order
and may stop early. Declarations are not written. -/

namespace SignalBox

open Json (Decoded)

def Json.decodeMembers [DecidableEq φ] (field? : Text → Option φ)
    (set : σ → φ → Json → Decoded σ) (state : σ) (seen : List φ) :
    List (Text × Json) → Decoded σ
  | [] => pure state
  | (lexeme, value) :: rest => do
      match field? (← Json.decodeLexeme lexeme) with
      | none =>
          Json.passOver value
          Json.decodeMembers field? set state seen rest
      | some field =>
          if field ∈ seen then throw .form
          Json.decodeMembers field? set (← set state field value) (field :: seen) rest

def Json.decodeElements (set : σ → φ → Json → Decoded σ) (state : σ) :
    List φ → List Json → Decoded σ
  | _, [] => pure state
  | [], _ :: _ => throw .form
  | field :: fields, value :: rest => do
      Json.decodeElements set (← set state field value) fields rest

def Json.decodeTexts : List Json → Decoded (List Text)
  | [] => pure []
  | value :: rest => do
      let s ← Json.decodeText value
      let later ← Json.decodeTexts rest
      pure (s :: later)

namespace Reader.Options

inductive Field where
  | depthLimit
  | timerSuffix
deriving DecidableEq, Repr

def Field.all : List Field := [.depthLimit, .timerSuffix]

def Field.key : Field → String
  | .depthLimit => "max_depth"
  | .timerSuffix => "seconds_suffix"

def Field.ofKey? (key : Text) : Option Field :=
  Field.all.find? fun field => field.key.toList = key

/-- Limits fit into 64 bits. -/
def decodeField (options : Options) (field : Field) (value : Json) : Decoded Options :=
  match field with
  | .depthLimit => do pure { options with depthLimit := ← Json.decodeNat UInt64.size value }
  | .timerSuffix => do pure { options with timerSuffix := ← Json.decodeText value }

def ofJson : Json → Decoded Options
  | .object members => Json.decodeMembers Field.ofKey? decodeField {} [] members
  | .array elements => Json.decodeElements decodeField {} Field.all elements
  | _ => throw .form

def toJson (options : Options) : Json :=
  .object [
    Json.member Field.depthLimit.key (.ofNat options.depthLimit),
    Json.member Field.timerSuffix.key (.ofText options.timerSuffix)]

end Reader.Options

namespace Config

inductive Field where
  | tableFiles
  | parser
  | tracing
deriving DecidableEq, Repr

def Field.all : List Field := [.tableFiles, .parser, .tracing]

def Field.key : Field → String
  | .tableFiles => "name_table_files"
  | .parser => "parser"
  | .tracing => "enable_tracing"

def Field.ofKey? (key : Text) : Option Field :=
  Field.all.find? fun field => field.key.toList = key

def decodeField (config : Config) (field : Field) (value : Json) : Decoded Config :=
  match field with
  | .tableFiles =>
      match value with
      | .array elements => do pure { config with tableFiles := ← Json.decodeTexts elements }
      | _ => throw .form
  | .parser => do pure { config with options := ← Reader.Options.ofJson value }
  | .tracing => do pure { config with tracing := ← Json.decodeBool value }

def ofJson : Json → Decoded Config
  | .object members => Json.decodeMembers Field.ofKey? decodeField {} [] members
  | .array elements => Json.decodeElements decodeField {} Field.all elements
  | _ => throw .form

def ofText (s : Text) : Decoded Config :=
  Json.decode ofJson s

def toJson (config : Config) : Json :=
  .object [
    Json.member Field.tableFiles.key (.array (config.tableFiles.map Json.ofText)),
    Json.member Field.parser.key config.options.toJson,
    Json.member Field.tracing.key (.bool config.tracing)]

end Config

end SignalBox
