import SignalBox.Proofs.DeviceTable.Lookup
import Mathlib.Data.List.Dedup

/-! A table is a log of writes of which the last to each name counts. Every run of operations on a
table can be followed on the log alone, where an operation is refused for what it writes and never
for what the table holds. -/

namespace SignalBox.DeviceTable

open SignalBox.Json (Decoded)

inductive Operation where
  | clear
  | ofSpelled (pairs : List (Text × Text))
  | insert (name : Text) (category : Category)
  | overlay (other : DeviceTable)
  | ofMap (entries : List (Text × Category))
  | ofJsonText (s : Text)
  | ofYamlText (s : Text)

def Operation.attempt (table : DeviceTable) : Operation → Option DeviceTable
  | clear => some .empty
  | ofSpelled pairs => (DeviceTable.ofSpelled pairs).toOption
  | insert name category => (Device.declare name category).toOption.map table.insert
  | overlay other => some (table.overlay other)
  | ofMap entries => (DeviceTable.ofMap entries).toOption
  | ofJsonText s => (DeviceTable.ofJsonText s).toOption
  | ofYamlText s => (DeviceTable.ofYamlText s).toOption

/-- An operation that fails leaves the table as it was. -/
def perform (table : DeviceTable) (operation : Operation) : DeviceTable :=
  (operation.attempt table).getD table

def run (operations : List Operation) : DeviceTable :=
  operations.foldl perform empty

abbrev Log := List (Text × Category)

def write? (name : Text) (category : Category) : Option (Text × Category) :=
  if name.isBlank ∨ category = .alternatives then none else some (name, category)

/-- The entries of a map that is written down as a row: those that no later entry undoes. -/
def lasting (entries : Log) : Log :=
  entries.filter fun entry => lastWrite entries entry.1 = some entry.2

def writeMap? (entries : Log) : Option Log :=
  (lasting entries).mapM fun entry => write? entry.1 entry.2

/-- What an operation makes of the log: it appends its writes or starts a log of its own. -/
def Operation.record (log : Log) : Operation → Option Log
  | clear => some []
  | ofSpelled pairs => pairs.mapM fun pair => (Category.ofText? pair.2).bind (write? pair.1)
  | insert name category => (write? name category).map fun write => log ++ [write]
  | overlay other => some (log ++ other.entries)
  | ofMap entries => writeMap? entries
  | ofJsonText s => (Json.decode mapOfJson s).toOption.bind writeMap?
  | ofYamlText s => (mapOfFlatMap (Yaml.FlatMap.ofText s)).toOption.bind writeMap?

def follow (log : Log) (operation : Operation) : Log :=
  (operation.record log).getD log

def logOf (operations : List Operation) : Log :=
  operations.foldl follow []

/-- A table answers as the last writes of a log do. -/
structure Reflects (table : DeviceTable) (log : Log) : Prop where
  find? : ∀ name, table.find? name = lastWrite log name
  declares : ∀ name, table.declares name = decide (name ∈ log.map Prod.fst)
  size : table.size = (log.map Prod.fst).dedup.length
  isEmpty : table.isEmpty = log.isEmpty
  distinct : (table.entries.map Prod.fst).Nodup
  mem_entries : ∀ name category,
    (name, category) ∈ table.entries ↔ lastWrite log name = some category

variable {table : DeviceTable} {log : Log}

theorem reflects_of_find? (same : ∀ name, table.find? name = lastWrite log name) :
    table.Reflects log := by
  have distinct : (table.entries.map Prod.fst).Nodup := by
    rw [entries, List.map_map]
    exact table.names_nodup
  have names : ∀ name, name ∈ table.entries.map Prod.fst ↔ name ∈ log.map Prod.fst := by
    intro name
    rw [← lastWrite_isSome_iff, ← lastWrite_isSome_iff, lastWrite_entries, same]
  have declares : ∀ name, table.declares name = decide (name ∈ log.map Prod.fst) := by
    intro name
    rw [DeviceTable.declares, same, Bool.eq_iff_iff, lastWrite_isSome_iff, decide_eq_true_iff]
  have size : table.size = (log.map Prod.fst).dedup.length := by
    have perm : (table.entries.map Prod.fst).Perm (log.map Prod.fst).dedup :=
      (List.perm_ext_iff_of_nodup distinct (List.nodup_dedup _)).mpr fun name => by
        rw [names, List.mem_dedup]
    rw [← perm.length_eq, List.length_map, entries, List.length_map]
    rfl
  have isEmpty : table.isEmpty = log.isEmpty := by
    have bare : table.entries.map Prod.fst = [] ↔ log.map Prod.fst = [] := by
      simp only [List.eq_nil_iff_forall_not_mem, names]
    rw [List.map_eq_nil_iff, entries, List.map_eq_nil_iff, List.map_eq_nil_iff] at bare
    rw [DeviceTable.isEmpty, Bool.eq_iff_iff, List.isEmpty_iff, List.isEmpty_iff, bare]
  refine ⟨same, declares, size, isEmpty, distinct, ?_⟩
  intro name category
  rw [mem_entries_iff, same]

theorem reflects_empty : empty.Reflects [] :=
  reflects_of_find? fun _ => rfl

theorem Reflects.foldl_insert (reflects : table.Reflects log) (devices : List Device) :
    (devices.foldl DeviceTable.insert table).Reflects (log ++ devices.map Device.entry) := by
  apply reflects_of_find?
  intro name
  rw [find?_foldl_insert, lastWrite_append, reflects.find?]

theorem declare_toOption (name : Text) (category : Category) :
    (Device.declare name category).toOption.map Device.entry = write? name category := by
  rw [write?]
  cases declared : Device.declare name category with
  | error fault =>
      rw [Device.declare_eq_error_iff, Device.fault?] at declared
      split at declared
      · next blank => simp [blank, Except.toOption]
      · split at declared
        · next choice => simp [choice, Except.toOption]
        · cases declared
  | ok d =>
      obtain ⟨rfl, rfl⟩ := Device.declare_eq_ok_iff.mp declared
      rw [if_neg (by simp [d.named, d.single])]
      rfl

section

variable {ε α : Type} {declare : α → Except ε Device} {write : α → Option (Text × Category)}

theorem mapM_toOption
    (agree : ∀ e, (declare e).toOption.map Device.entry = write e) (entries : List α) :
    (entries.mapM declare).toOption.map (List.map Device.entry) = entries.mapM write := by
  induction entries with
  | nil => rfl
  | cons e entries ih =>
      rw [List.mapM_cons, List.mapM_cons, ← ih, ← agree]
      cases declare e with
      | error fault => rfl
      | ok d => cases entries.mapM declare <;> rfl

theorem reflects_declared
    (agree : ∀ e, (declare e).toOption.map Device.entry = write e) (entries : List α) :
    Option.Rel Reflects
      (entries.foldlM (fun table e => (declare e).map table.insert) empty).toOption
      (entries.mapM write) := by
  rw [Except.foldlM_map_eq, ← mapM_toOption agree]
  cases entries.mapM declare with
  | error fault => exact .none
  | ok devices => exact .some (reflects_empty.foldl_insert devices)

end

theorem mem_lasting_iff {entries : Log} {entry : Text × Category} :
    entry ∈ lasting entries ↔ lastWrite entries entry.1 = some entry.2 := by
  rw [lasting, List.mem_filter, decide_eq_true_iff]
  exact and_iff_right_of_imp mem_of_lastWrite

theorem mem_lastOfEach_iff {entries : Log} {entry : Text × Category} :
    entry ∈ lastOfEach entries ↔ lastWrite entries entry.1 = some entry.2 := by
  induction entries with
  | nil => simp [lastOfEach, lastWrite]
  | cons first rest ih =>
      have undone : (rest.any fun later => later.1 = first.1) =
          (lastWrite rest first.1).isSome := by
        rw [Bool.eq_iff_iff, lastWrite_isSome_iff, List.any_eq_true, List.mem_map]
        simp only [decide_eq_true_iff]
      rw [lastOfEach, undone, lastWrite_cons]
      split
      · next later =>
          obtain ⟨category, last⟩ := Option.isSome_iff_exists.mp later
          rw [ih]
          by_cases own : first.1 = entry.1
          · rw [if_pos own, ← own, last]
            rfl
          · rw [if_neg own, Option.or_none]
      · next untouched =>
          have fresh : lastWrite rest first.1 = none := Option.not_isSome_iff_eq_none.mp untouched
          rw [List.mem_cons, ih]
          by_cases own : first.1 = entry.1
          · rw [if_pos own, ← own, fresh, Option.none_or, Option.some_inj]
            constructor
            · rintro (rfl | later)
              · rfl
              · cases later
            · intro same
              exact .inl (Prod.ext own same).symm
          · rw [if_neg own, Option.or_none]
            exact or_iff_right fun same => own (congrArg Prod.fst same).symm

def refusal? (entries : Log) : Option Declaration.Error :=
  (lastOfEach entries).findSome? fun entry => Device.fault? entry.1 entry.2

theorem ofMap_eq_error_iff {entries : Log} {fault : Declaration.Error} :
    DeviceTable.ofMap entries = .error fault ↔ refusal? entries = some fault := by
  let declare (entry : Text × Category) := Device.declare entry.1 entry.2
  have faults : ∀ entry fault, declare entry = .error fault ↔
      Device.fault? entry.1 entry.2 = some fault :=
    fun _ _ => Device.declare_eq_error_iff
  rw [DeviceTable.ofMap, refusal?, Except.foldlM_map_eq declare, ← Except.mapM_eq_error_iff faults]
  cases (lastOfEach entries).mapM declare <;> simp [Except.map]

theorem lastWrite_filter (entries : Log) (name other : Text) :
    lastWrite (entries.filter fun entry => entry.1 ≠ name) other =
      if other = name then none else lastWrite entries other := by
  induction entries with
  | nil => rw [List.filter_nil, lastWrite, List.reverse_nil, List.lookup_nil, ite_self]
  | cons entry entries ih =>
      rw [List.filter_cons, lastWrite_cons]
      by_cases same : entry.1 = name
      · rw [if_neg (by simpa using same), ih, same]
        split
        · rfl
        · next apart => rw [if_neg (Ne.symm apart), Option.or_none]
      · rw [if_pos (by simpa using same), lastWrite_cons, ih]
        split
        · next own => rw [if_neg fun named => same (named.trans own), Option.or_none]
        · rfl

/-- What is told of a refused map is wrong with one of its entries, and it may be any of them: that
depends on the order in which the map is gone through. -/
theorem exists_ofMap_eq_error_iff (entries : Log) (fault : Declaration.Error) :
    (∃ order : Log, (∀ name, lastWrite order name = lastWrite entries name) ∧
      DeviceTable.ofMap order = .error fault) ↔
    ∃ name category, lastWrite entries name = some category ∧
      Device.fault? name category = some fault := by
  constructor
  · rintro ⟨order, same, refused⟩
    obtain ⟨entry, member, wrong⟩ :=
      List.exists_of_findSome?_eq_some (ofMap_eq_error_iff.mp refused)
    exact ⟨entry.1, entry.2, (same _).symm.trans (mem_lastOfEach_iff.mp member), wrong⟩
  · rintro ⟨name, category, lasts, wrong⟩
    refine ⟨(name, category) :: entries.filter fun entry => entry.1 ≠ name, ?_, ?_⟩
    · intro other
      rw [lastWrite_cons, lastWrite_filter]
      split
      · next own => rw [if_pos own.symm, Option.none_or, own, lasts]
      · next apart => rw [if_neg (Ne.symm apart), Option.or_none]
    · have alone : ((entries.filter fun entry => entry.1 ≠ name).any fun later =>
          later.1 = name) = false := by
        simp
      rw [ofMap_eq_error_iff, refusal?, lastOfEach, alone, if_neg Bool.false_ne_true,
        List.findSome?_cons, wrong]

theorem mapM_write? (writes : Log) :
    writes.mapM (fun entry => write? entry.1 entry.2) =
      if ∀ entry, entry ∈ writes → write? entry.1 entry.2 = some entry then some writes
      else none := by
  induction writes with
  | nil => rfl
  | cons first rest ih =>
      have decided : write? first.1 first.2 = some first ∨ write? first.1 first.2 = none := by
        rw [write?]
        split
        · exact .inr rfl
        · exact .inl rfl
      rw [List.mapM_cons, ih]
      simp only [List.forall_mem_cons]
      rcases decided with taken | refused
      · simp only [taken, true_and]
        split <;> rfl
      · simp [refused]

theorem reflects_ofMap (entries : Log) :
    Option.Rel Reflects (DeviceTable.ofMap entries).toOption (writeMap? entries) := by
  have declared : Option.Rel Reflects (DeviceTable.ofMap entries).toOption _ :=
    reflects_declared (fun entry : Text × Category => declare_toOption entry.1 entry.2)
      (lastOfEach entries)
  have same : ∀ {entry}, entry ∈ lastOfEach entries ↔ entry ∈ lasting entries :=
    mem_lastOfEach_iff.trans mem_lasting_iff.symm
  rw [mapM_write?] at declared
  rw [writeMap?, mapM_write?]
  generalize (DeviceTable.ofMap entries).toOption = outcome at declared ⊢
  by_cases taken : ∀ entry, entry ∈ lasting entries → write? entry.1 entry.2 = some entry
  · rw [if_pos fun entry member => taken entry (same.mp member)] at declared
    rw [if_pos taken]
    cases declared with
    | some reflects =>
        apply Option.Rel.some
        apply reflects_of_find?
        intro name
        rw [reflects.find?, lastWrite_of_graph fun _ => mem_lastOfEach_iff,
          lastWrite_of_graph fun _ => mem_lasting_iff]
  · rw [if_neg fun all => taken fun entry member => all entry (same.mpr member)] at declared
    rw [if_neg taken]
    cases declared
    exact .none

theorem find?_of_ofMap {entries : List (Text × Category)}
    (taken : (DeviceTable.ofMap entries).toOption = some table) (name : Text) :
    table.find? name = lastWrite entries name := by
  have reflects := reflects_ofMap entries
  rw [taken, writeMap?, mapM_write?] at reflects
  split at reflects
  · cases reflects with
    | some reflects =>
        rw [reflects.find?, lastWrite_of_graph fun _ => mem_lasting_iff]
  · cases reflects

theorem mapError_refused (outcome : Except Declaration.Error DeviceTable) :
    (match outcome with
      | .ok table => pure table
      | .error error => throw (.refused error) : Decoded DeviceTable) =
        outcome.mapError .refused := by
  cases outcome <;> rfl

theorem ofYamlText_eq (s : Text) : DeviceTable.ofYamlText s = (do
    let entries ← entriesOfYamlText s
    (DeviceTable.ofMap entries).mapError .refused) := by
  rw [DeviceTable.ofYamlText, ofFlatMap, entriesOfYamlText, mapOfFlatMap]
  cases categoriesOf (Yaml.FlatMap.ofText s).entries with
  | error fault => rfl
  | ok entries =>
      cases (Yaml.FlatMap.ofText s).complete with
      | false => rfl
      | true => exact mapError_refused (DeviceTable.ofMap entries)

theorem ofJsonText_eq (s : Text) : DeviceTable.ofJsonText s = (do
    let entries ← entriesOfJsonText s
    (DeviceTable.ofMap entries).mapError .refused) := by
  rw [DeviceTable.ofJsonText, Json.decode, entriesOfJsonText]
  cases (Json.Document.ofText s).value with
  | object members =>
      dsimp only [ofJson, mapOfJson]
      cases entriesOfJson members with
      | error fault => rfl
      | ok entries =>
          cases (Json.Document.ofText s).ended with
          | false =>
              dsimp only [bind, Except.bind]
              cases DeviceTable.ofMap entries <;> rfl
          | true =>
              change _ >>= pure = (DeviceTable.ofMap entries).mapError Json.Fault.refused
              rw [bind_pure]
              exact mapError_refused (DeviceTable.ofMap entries)
  | _ => rfl

theorem toOption_bind_ofMap (decoded : Decoded Log) :
    Except.toOption (do
      let entries ← decoded
      (DeviceTable.ofMap entries).mapError Json.Fault.refused) =
    decoded.toOption.bind fun entries => (DeviceTable.ofMap entries).toOption := by
  cases decoded with
  | error fault => rfl
  | ok entries =>
      change Except.toOption ((DeviceTable.ofMap entries).mapError _) =
        (DeviceTable.ofMap entries).toOption
      cases DeviceTable.ofMap entries <;> rfl

theorem entriesOfJsonText_toOption (s : Text) :
    (entriesOfJsonText s).toOption = (Json.decode mapOfJson s).toOption := by
  rw [entriesOfJsonText, Json.decode]
  cases mapOfJson (Json.Document.ofText s).value with
  | error fault => rfl
  | ok entries =>
      dsimp only [bind, Except.bind]
      cases (Json.Document.ofText s).ended with
      | false => cases DeviceTable.ofMap entries <;> rfl
      | true => rfl

theorem reflects_bind_ofMap (entries? : Option Log) :
    Option.Rel Reflects (entries?.bind fun entries => (DeviceTable.ofMap entries).toOption)
      (entries?.bind writeMap?) := by
  cases entries? with
  | none => exact .none
  | some entries => exact reflects_ofMap entries

theorem Reflects.attempt (reflects : table.Reflects log) (operation : Operation) :
    Option.Rel Reflects (operation.attempt table) (operation.record log) := by
  cases operation with
  | clear => exact .some reflects_empty
  | ofSpelled pairs =>
      apply reflects_declared
      intro pair
      rw [Device.declareSpelled]
      cases Category.ofText? pair.2 with
      | none => rfl
      | some category => exact declare_toOption pair.1 category
  | insert name category =>
      rw [Operation.attempt, Operation.record, ← declare_toOption]
      cases Device.declare name category with
      | error fault => exact .none
      | ok d => exact .some (reflects.foldl_insert [d])
  | overlay other => exact .some (reflects.foldl_insert other.devices)
  | ofMap entries => exact reflects_ofMap entries
  | ofJsonText s =>
      rw [Operation.attempt, ofJsonText_eq, toOption_bind_ofMap, entriesOfJsonText_toOption]
      exact reflects_bind_ofMap _
  | ofYamlText s =>
      rw [Operation.attempt, ofYamlText_eq, toOption_bind_ofMap]
      exact reflects_bind_ofMap _

section

variable {after : Option DeviceTable} {written : Option Log}

theorem isSome_eq_of_rel (outcome : Option.Rel Reflects after written) :
    after.isSome = written.isSome := by
  cases outcome <;> rfl

theorem Reflects.getD (reflects : table.Reflects log)
    (outcome : Option.Rel Reflects after written) :
    (after.getD table).Reflects (written.getD log) := by
  cases outcome with
  | none => exact reflects
  | some after => exact after

end

theorem Reflects.perform (reflects : table.Reflects log) (operation : Operation) :
    (table.perform operation).Reflects (follow log operation) :=
  reflects.getD (reflects.attempt operation)

theorem Reflects.foldl_perform (reflects : table.Reflects log) (operations : List Operation) :
    (operations.foldl DeviceTable.perform table).Reflects (operations.foldl follow log) := by
  induction operations generalizing table log with
  | nil => exact reflects
  | cons operation operations ih => exact ih (reflects.perform operation)

theorem run_reflects (operations : List Operation) : (run operations).Reflects (logOf operations) :=
  reflects_empty.foldl_perform operations

theorem entry_sound {entry : Text × Category} (member : entry ∈ table.entries) :
    entry.1.isBlank = false ∧ entry.2 ≠ .alternatives := by
  obtain ⟨d, -, rfl⟩ := List.mem_map.mp member
  exact ⟨d.named, d.single⟩

/-- After every run of operations the table answers as the last writes of the log do, and nothing in
it is nameless or a choice. An operation fails on the table exactly when the log refuses it. Spelled
declarations in a row are the later ones laid over the earlier ones; they fail with what is wrong
with the first pair that has a fault, and with nothing else. -/
theorem run_logged (operations : List Operation) (pairs later : List (Text × Text))
    (fault : Declaration.Error) :
    (∀ entry, entry ∈ (run operations).entries →
      entry.1.isBlank = false ∧ entry.2 ≠ .alternatives) ∧
    (run operations).Reflects (logOf operations) ∧
    (∀ operation : Operation, (operation.attempt (run operations)).isSome =
      (operation.record (logOf operations)).isSome) ∧
    ofSpelled (pairs ++ later) = (do
      let below ← ofSpelled pairs
      let above ← ofSpelled later
      pure (below.overlay above)) ∧
    ((ofSpelled pairs).toOption = none ↔ ∃ pair, pair ∈ pairs ∧
      (pair.2.isBlank ∨ pair.1.isBlank ∨ pair.2.trim.lower = "or".toList)) ∧
    (ofSpelled pairs = .error fault ↔ pairs.findSome? spelledFault? = some fault) := by
  refine ⟨fun entry => entry_sound, run_reflects operations, ?_, ofSpelled_append pairs later,
    ofSpelled_fails_iff, ofSpelled_eq_error_iff⟩
  intro operation
  exact isSome_eq_of_rel ((run_reflects operations).attempt operation)

theorem run_logged_refused :
    ∃ operations, (run operations).entries =
        [("A".toList, .track), ("B".toList, .lever), ("D".toList, .timer)] ∧
      (Text.isBlank "D".toList = false ∧ Category.timer ≠ .alternatives) ∧
      logOf operations = [("A".toList, .signal), ("B".toList, .point), ("B".toList, .lever),
        ("A".toList, .track), ("D".toList, .timer)] ∧
      (run operations).find? "A".toList = lastWrite (logOf operations) "A".toList ∧
      ((Operation.insert " ".toList .point).attempt (run operations)).isSome = false ∧
      ofSpelled [("A".toList, "signal".toList), (" ".toList, " ".toList)] =
        .error (.device " ".toList .blankCategory) := by
  let operations : List Operation := [.insert "C".toList .signal,
    .ofSpelled [("A".toList, "signal".toList), ("B".toList, "point".toList)],
    .insert "B".toList .lever, .insert " ".toList .point, .insert "A".toList .alternatives,
    .overlay (empty.insert ⟨"A".toList, .track, by decide, by decide⟩),
    .ofSpelled [("C".toList, " OR ".toList)], .insert "D".toList .timer]
  have entries : (run operations).entries =
      [("A".toList, .track), ("B".toList, .lever), ("D".toList, .timer)] := by decide +kernel
  have written : logOf operations = [("A".toList, .signal), ("B".toList, .point),
      ("B".toList, .lever), ("A".toList, .track), ("D".toList, .timer)] := by decide +kernel
  obtain ⟨sound, reflects, fails, -, -, first⟩ := run_logged operations
    [("A".toList, "signal".toList), (" ".toList, " ".toList)] [] (.device " ".toList .blankCategory)
  refine ⟨operations, entries, sound ("D".toList, .timer) ?_, written, reflects.find? _, ?_,
    first.mpr (by decide)⟩
  · rw [entries]
    decide
  · rw [fails]
    rfl

end SignalBox.DeviceTable
