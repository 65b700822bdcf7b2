import SignalBox.Config
import SignalBox.Proofs.DeviceTable.Log
import SignalBox.Proofs.Engine

/-! What a configuration comes to. It is checked piece by piece, and the first check that fails
tells why no engine comes about; else the engine knows each name by the last place that declares
it. -/

namespace SignalBox

namespace TableFile

open DeviceTable

variable {ε δ : Type} {source : Source ε δ} {path content : Text} {format : Format}
  {table : DeviceTable} {name : Text} {paths : List Text}

def formatFault? (path : Text) : Option (Error ε δ) :=
  if (Format.ofPath? path).isNone then some (.unsupported path) else none

def openingFault? (source : Source ε δ) (path : Text) : Option (Error ε δ) :=
  match source.fetch path with
  | .error error => some (.opening error)
  | .ok _ => none

def contentFault? (source : Source ε δ) (path : Text) : Option (Error ε δ) := do
  let format ← Format.ofPath? path
  let content ← (source.fetch path).toOption
  match source.entries format content with
  | .error error => some (.content format path (.noMap error))
  | .ok entries => (refusal? entries).map fun error => .content format path (.refused error)

def fault? (source : Source ε δ) (path : Text) : Option (Error ε δ) :=
  (formatFault? path).or ((openingFault? source path).or (contentFault? source path))

theorem decode_eq_error_iff {error : Error ε δ} :
    decode source format path content = .error error ↔
      (match source.entries format content with
        | .error cause => some (.content format path (.noMap cause))
        | .ok entries =>
            (refusal? entries).map fun cause => .content format path (.refused cause)) =
          some error := by
  rw [decode]
  cases source.entries format content with
  | error cause => simp [Except.mapError, bind, Except.bind]
  | ok entries =>
      change (DeviceTable.ofMap entries).mapError _ = _ ↔ _
      cases declared : DeviceTable.ofMap entries with
      | error cause => simp [Except.mapError, ofMap_eq_error_iff.mp declared]
      | ok table =>
          have accepted : refusal? entries = none := by
            rw [Option.eq_none_iff_forall_ne_some]
            intro cause refused
            cases declared.symm.trans (ofMap_eq_error_iff.mpr refused)
          simp [Except.mapError, accepted]

theorem read_eq_error_iff (source : Source ε δ) (path : Text) (error : Error ε δ) :
    read source path = .error error ↔ fault? source path = some error := by
  rw [read, fault?, formatFault?, openingFault?, contentFault?]
  cases Format.ofPath? path with
  | none => simp [throw, throwThe, MonadExceptOf.throw]
  | some format =>
      cases source.fetch path with
      | error cause => simp [Except.mapError, bind, Except.bind]
      | ok content => exact decode_eq_error_iff

theorem readAll_eq (source : Source ε δ) (paths : List Text) :
    readAll source paths =
      (paths.mapM (read source)).map fun tables => tables.foldl overlay empty :=
  Except.foldlM_map_eq (read source) overlay paths empty

theorem readAll_eq_error_iff (source : Source ε δ) (paths : List Text) (error : Error ε δ) :
    readAll source paths = .error error ↔ paths.findSome? (fault? source) = some error := by
  rw [readAll_eq, ← Except.mapM_eq_error_iff (read_eq_error_iff source)]
  cases paths.mapM (read source) <;> simp [Except.map]

def map? (source : Source ε δ) (path : Text) : Option (List (Text × Category)) := do
  let format ← Format.ofPath? path
  let content ← (source.fetch path).toOption
  (source.entries format content).toOption

theorem exists_of_read (loaded : read source path = .ok table) :
    ∃ entries, map? source path = some entries ∧ DeviceTable.ofMap entries = .ok table := by
  rw [read] at loaded
  cases known : Format.ofPath? path with
  | none =>
      rw [known] at loaded
      cases loaded
  | some format =>
      rw [known] at loaded
      obtain ⟨content, opened, decoded⟩ := Except.bind_eq_ok loaded
      obtain ⟨entries, found, declared⟩ := Except.bind_eq_ok decoded
      rw [Except.mapError_eq_ok_iff] at opened found declared
      refine ⟨entries, ?_, declared⟩
      simp [map?, known, opened, found, Except.toOption]

theorem find?_of_read (loaded : read source path = .ok table) (name : Text) :
    table.find? name = (map? source path).bind (lastWrite · name) := by
  obtain ⟨entries, held, declared⟩ := exists_of_read loaded
  rw [held]
  exact find?_of_ofMap (congrArg Except.toOption declared) name

theorem find?_of_readAll (loaded : readAll source paths = .ok table) (name : Text) :
    table.find? name =
      paths.reverse.findSome? fun path => (map? source path).bind (lastWrite · name) := by
  rw [readAll_eq] at loaded
  cases mapped : paths.mapM (read source) with
  | error error =>
      rw [mapped] at loaded
      cases loaded
  | ok tables =>
      rw [mapped] at loaded
      cases loaded
      rw [find?_foldl_overlay]
      have each := List.forall₂_reverse_iff.mpr (Except.forall₂_of_mapM mapped)
      generalize paths.reverse = paths, tables.reverse = tables at each ⊢
      induction each with
      | nil => rfl
      | cons first later ih =>
          rw [List.findSome?_cons, List.findSome?_cons, find?_of_read first, ih]

end TableFile

namespace Config

variable {ε δ : Type} {e : Engine}

/-- One thing that is looked at on the way to an engine. -/
inductive Check where
  | depth
  | suffix
  | format (path : Text)
  | opening (path : Text)
  | content (path : Text)
  | declaration (pair : Text × Text)

/-- What a check fails with, whatever the others come to. -/
def Check.failure? (config : Config) (source : TableFile.Source ε δ) :
    Check → Option (Failure ε δ)
  | .depth => if config.options.depthLimit = 0 then some (.config .noDepth) else none
  | .suffix => if config.options.timerSuffix.isBlank then some (.config .blankSuffix) else none
  | .format path => (TableFile.formatFault? path).map .tableFile
  | .opening path => (TableFile.openingFault? source path).map .tableFile
  | .content path => (TableFile.contentFault? source path).map .tableFile
  | .declaration pair => (DeviceTable.spelledFault? pair).map .declaration

def fileChecks (path : Text) : List Check :=
  [.format path, .opening path, .content path]

/-- The checks in the order in which they count. -/
def checks (config : Config) : List Check :=
  [.depth, .suffix] ++ config.tableFiles.flatMap fileChecks ++
    config.declarations.map .declaration

def failure? (config : Config) (source : TableFile.Source ε δ) : Option (Failure ε δ) :=
  config.checks.findSome? (Check.failure? config source)

/-- The category that the last declaration of a name gives it, and else the last file that has the
name. -/
def categoryOf? (config : Config) (source : TableFile.Source ε δ) (name : Text) :
    Option Category :=
  ((config.declarations.reverse.lookup name).bind Category.ofText?).or
    (config.tableFiles.reverse.findSome? fun path =>
      (TableFile.map? source path).bind (DeviceTable.lastWrite · name))

section

variable (config : Config) (source : TableFile.Source ε δ)

theorem findSome?_fileChecks (path : Text) :
    (fileChecks path).findSome? (Check.failure? config source) =
      (TableFile.fault? source path).map .tableFile := by
  simp only [fileChecks, List.findSome?_cons, List.findSome?_nil, Check.failure?,
    TableFile.fault?]
  cases TableFile.formatFault? path <;> cases TableFile.openingFault? source path <;>
    cases TableFile.contentFault? source path <;> rfl

theorem findSome?_files (paths : List Text) :
    (paths.flatMap fileChecks).findSome? (Check.failure? config source) =
      (paths.findSome? (TableFile.fault? source)).map .tableFile := by
  induction paths with
  | nil => rfl
  | cons path paths ih =>
      rw [List.flatMap_cons, List.findSome?_append, findSome?_fileChecks, ih, List.findSome?_cons]
      cases TableFile.fault? source path <;> rfl

theorem findSome?_declarations (pairs : List (Text × Text)) :
    (pairs.map Check.declaration).findSome? (Check.failure? config source) =
      (pairs.findSome? DeviceTable.spelledFault?).map .declaration := by
  rw [List.findSome?_map, List.map_findSome?]
  rfl

theorem failure?_eq :
    config.failure? source =
      ([Check.depth, .suffix].findSome? (Check.failure? config source)).or
        (((config.tableFiles.findSome? (TableFile.fault? source)).map .tableFile).or
          ((config.declarations.findSome? DeviceTable.spelledFault?).map .declaration)) := by
  rw [failure?, checks, List.findSome?_append, List.findSome?_append, findSome?_files,
    findSome?_declarations, Option.or_assoc]

theorem check_eq :
    config.check.mapError Failure.config =
      match [Check.depth, .suffix].findSome? (Check.failure? config source) with
      | some failure => .error failure
      | none => .ok () := by
  rw [check]
  by_cases none : config.options.depthLimit = 0
  · simp [none, Check.failure?, throw, throwThe, MonadExceptOf.throw, Except.mapError]
  · by_cases blank : config.options.timerSuffix.isBlank
    · simp [none, blank, Check.failure?, throw, throwThe, MonadExceptOf.throw, Except.mapError]
    · simp [none, blank, Check.failure?, pure, Except.pure, Except.mapError]

theorem engine_cases :
    (∃ failure, config.failure? source = some failure ∧ config.engine source = .error failure) ∨
    (config.failure? source = none ∧ ∃ fromFiles declared,
      TableFile.readAll source config.tableFiles = .ok fromFiles ∧
      DeviceTable.ofSpelled config.declarations = .ok declared ∧
      config.engine source =
        .ok ⟨fromFiles.overlay declared, config.options, config.tracing⟩) := by
  rw [failure?_eq, engine, check_eq config source]
  cases [Check.depth, .suffix].findSome? (Check.failure? config source) with
  | some failure => exact .inl ⟨failure, rfl, rfl⟩
  | none =>
      cases loaded : TableFile.readAll source config.tableFiles with
      | error error =>
          rw [(TableFile.readAll_eq_error_iff source _ error).mp loaded]
          exact .inl ⟨_, rfl, rfl⟩
      | ok fromFiles =>
          cases wrong : config.tableFiles.findSome? (TableFile.fault? source) with
          | some error =>
              cases loaded.symm.trans ((TableFile.readAll_eq_error_iff source _ error).mpr wrong)
          | none =>
              cases declared : DeviceTable.ofSpelled config.declarations with
              | error error =>
                  rw [DeviceTable.ofSpelled_eq_error_iff.mp declared]
                  exact .inl ⟨_, rfl, rfl⟩
              | ok table =>
                  cases refused : config.declarations.findSome? DeviceTable.spelledFault? with
                  | some error =>
                      cases declared.symm.trans (DeviceTable.ofSpelled_eq_error_iff.mpr refused)
                  | none => exact .inr ⟨rfl, fromFiles, table, rfl, rfl, rfl⟩

theorem engine_eq_error_iff (failure : Failure ε δ) :
    config.engine source = .error failure ↔ config.failure? source = some failure := by
  rcases config.engine_cases source with ⟨first, found, failed⟩ | ⟨none, _, _, _, _, built⟩
  · rw [found, failed]
    exact ⟨fun same => congrArg some (Except.error.inj same),
      fun same => congrArg Except.error (Option.some.inj same)⟩
  · rw [none, built]
    exact ⟨nofun, nofun⟩

end

variable {config : Config} {source : TableFile.Source ε δ}

theorem exists_engine (clean : config.failure? source = none) :
    ∃ e, config.engine source = .ok e := by
  rcases config.engine_cases source with ⟨first, found, _⟩ | ⟨_, _, _, _, _, built⟩
  · cases clean.symm.trans found
  · exact ⟨_, built⟩

theorem exists_of_engine (built : config.engine source = .ok e) :
    ∃ fromFiles declared, TableFile.readAll source config.tableFiles = .ok fromFiles ∧
      DeviceTable.ofSpelled config.declarations = .ok declared ∧
      e = ⟨fromFiles.overlay declared, config.options, config.tracing⟩ := by
  rcases config.engine_cases source with ⟨_, _, failed⟩ | ⟨_, fromFiles, declared, files, own, made⟩
  · cases built.symm.trans failed
  · exact ⟨fromFiles, declared, files, own, Except.ok.inj (built.symm.trans made)⟩

theorem find?_of_engine (built : config.engine source = .ok e) (name : Text) :
    e.devices.find? name = config.categoryOf? source name := by
  obtain ⟨fromFiles, declared, files, own, rfl⟩ := exists_of_engine built
  rw [DeviceTable.find?_overlay, DeviceTable.find?_of_ofSpelled own,
    TableFile.find?_of_readAll files, categoryOf?]

theorem declares_of_engine (built : config.engine source = .ok e) (name : Text) :
    e.devices.declares name = true ↔ name ∈ config.declarations.map Prod.fst ∨
      ∃ path entries, path ∈ config.tableFiles ∧ TableFile.map? source path = some entries ∧
        name ∈ entries.map Prod.fst := by
  obtain ⟨fromFiles, declared, files, own, rfl⟩ := exists_of_engine built
  rw [DeviceTable.declares, DeviceTable.find?_overlay, Option.isSome_or, Bool.or_eq_true,
    DeviceTable.declares_of_ofSpelled own, TableFile.find?_of_readAll files,
    List.findSome?_isSome_iff]
  refine or_congr_right ⟨?_, ?_⟩
  · rintro ⟨path, listed, found⟩
    obtain ⟨category, last⟩ := Option.isSome_iff_exists.mp found
    obtain ⟨entries, held, own⟩ := Option.bind_eq_some_iff.mp last
    exact ⟨path, entries, List.mem_reverse.mp listed, held,
      DeviceTable.lastWrite_isSome_iff.mp (Option.isSome_iff_exists.mpr ⟨category, own⟩)⟩
  · rintro ⟨path, entries, listed, held, member⟩
    refine ⟨path, List.mem_reverse.mpr listed, ?_⟩
    rw [held]
    exact DeviceTable.lastWrite_isSome_iff.mpr member

/-- No engine comes about if and only if a check fails, and the first that fails tells why. Else the
engine knows each name by its last declaration, or by the last file that has it, and no other name;
and its results are those of every reader that has such a table and these options. -/
theorem engine_layers (config : Config) (source : TableFile.Source ε δ) :
    (∀ failure, config.engine source = .error failure ↔
      config.checks.findSome? (Check.failure? config source) = some failure) ∧
    (config.checks.findSome? (Check.failure? config source) = none →
      ∃ e, config.engine source = .ok e) ∧
    ∀ e, config.engine source = .ok e →
      (∀ name, e.devices.find? name = config.categoryOf? source name) ∧
      (∀ name, e.devices.declares name = true ↔ name ∈ config.declarations.map Prod.fst ∨
        ∃ path entries, path ∈ config.tableFiles ∧ TableFile.map? source path = some entries ∧
          name ∈ entries.map Prod.fst) ∧
      e.options = config.options ∧ e.tracing = config.tracing ∧
      ∀ table : DeviceTable, (∀ name, table.find? name = config.categoryOf? source name) →
        ∀ s formulas,
          (e.parse s : Except (Failure ε δ) (List Condition) × List Engine.Event).1 =
            (Reader.parse ⟨table, config.options⟩ s).mapError .formula ∧
          (e.report s).1 = Reader.report ⟨table, config.options⟩ s ∧
          (e.reports formulas).1 = formulas.map (Reader.report ⟨table, config.options⟩) ∧
          (e.routeLock s).1 = Reader.routeLock ⟨table, config.options⟩ s := by
  refine ⟨config.engine_eq_error_iff source, exists_engine, ?_⟩
  intro e built
  obtain ⟨fromFiles, declared, files, own, made⟩ := exists_of_engine built
  refine ⟨find?_of_engine built, declares_of_engine built, congrArg Engine.options made,
    congrArg Engine.tracing made, ?_⟩
  intro table answers s formulas
  have same : table = e.devices := DeviceTable.eq_of_find? fun name =>
    (answers name).trans (find?_of_engine built name).symm
  have reader : e.reader = ⟨table, config.options⟩ := by
    rw [Engine.reader, same, congrArg Engine.options made]
  rw [← reader]
  exact ⟨e.parse_result s, rfl, congrArg Prod.fst (e.reports_eq formulas), rfl⟩

theorem engine_layers_overlapping :
    ∃ (source : TableFile.Source String Json.Fault) (config bad : Config) (e : Engine),
      config.checks.findSome? (Check.failure? config source) = none ∧
      config.engine source = .ok e ∧ e.devices.find? ['A'] = some .track ∧
      e.devices.find? ['B'] = some .signal ∧ e.devices.find? ['C'] = some .lever ∧
      e.devices.find? ['D'] = none ∧
      (∀ name, e.devices.find? name = config.categoryOf? source name) ∧
      (e.reports ["A B".toList]).1 =
        [Reader.report ⟨e.devices, config.options⟩ "A B".toList] ∧
      bad.engine source =
        .error (.tableFile (.opening "No such file or directory (os error 2)")) := by
  let source : TableFile.Source String Json.Fault :=
    { fetch := fun path =>
        if path = "a.json".toList then
          .ok "\x7b\"A\": \"point\", \"B\": \"point\", \"C\": \"lever\"\x7d".toList
        else if path = "b.yml".toList then .ok "A: signal\nB: signal\n".toList
        else .error "No such file or directory (os error 2)"
      entries := TableFile.entriesOfText }
  let config : Config :=
    { tableFiles := ["a.json".toList, "b.yml".toList]
      declarations := [(['A'], "point".toList), (['A'], "track".toList)] }
  let bad : Config :=
    { tableFiles := ["a.json".toList, "c.json".toList, "d.txt".toList]
      declarations := [(['A'], [])] }
  have law := config.engine_layers source
  have clean : config.checks.findSome? (Check.failure? config source) = none := by
    decide +kernel
  obtain ⟨e, built⟩ := law.2.1 clean
  obtain ⟨answers, -, -, -, reads⟩ := law.2.2 e built
  refine ⟨source, config, bad, e, clean, built, (answers _).trans (by decide +kernel),
    (answers _).trans (by decide +kernel), (answers _).trans (by decide +kernel),
    (answers _).trans (by decide +kernel), answers,
    (reads _ answers [] ["A B".toList]).2.2.1, ?_⟩
  exact ((bad.engine_layers source).1 _).mpr (by decide +kernel)

end Config

end SignalBox
