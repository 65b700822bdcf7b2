import SignalBox.Proofs.DeviceTable.Log
import SignalBox.Proofs.Json.Decode

/-! A table is written down as its devices, in any order. It is read back from that exactly when
each category in it is the one that its spelling stands for. Insertion takes any category, so a
table need not be like that; it is if all its categories were read from text. -/

namespace SignalBox

def Device.member (d : Device) : Text × Json :=
  (Json.Quoted.encode d.name, .ofText d.category.spelling)

namespace DeviceTable

variable {table other : DeviceTable} {devices : List Device}

theorem toJson_eq (table : DeviceTable) :
    table.toJson = .object (table.devices.map Device.member) :=
  rfl

theorem written_members (devices : List Device) :
    Json.Written (.object (devices.map Device.member)) := by
  apply Json.Written.object
  · intro m member
    obtain ⟨d, -, rfl⟩ := List.mem_map.mp member
    exact ⟨d.name, rfl⟩
  · intro m member
    obtain ⟨d, -, rfl⟩ := List.mem_map.mp member
    exact .string d.category.spelling

theorem entriesOfJson_members
    (spelled : ∀ d, d ∈ devices → Category.ofText? d.category.spelling = some d.category) :
    entriesOfJson (devices.map Device.member) = pure (devices.map Device.entry) := by
  induction devices with
  | nil => rfl
  | cons d devices ih =>
      obtain ⟨first, later⟩ := List.forall_mem_cons.mp spelled
      rw [List.map_cons, Device.member, entriesOfJson, Json.decodeLexeme_encode, pure_bind,
        Json.decodeCategory_ofText first, pure_bind, ih later, pure_bind]
      rfl

theorem mem_entries_of_perm (order : devices.Perm table.devices) (entry : Text × Category) :
    entry ∈ devices.map Device.entry ↔ table.find? entry.1 = some entry.2 := by
  rw [(order.map Device.entry).mem_iff]
  exact mem_entries_iff

theorem write?_entry (d : Device) : write? d.name d.category = some d.entry := by
  rw [← declare_toOption, Device.declare_eq_ok_iff.mpr ⟨rfl, rfl⟩]
  rfl

theorem writeMap?_entries (devices : List Device) :
    writeMap? (devices.map Device.entry) = some (lasting (devices.map Device.entry)) := by
  rw [writeMap?, mapM_write?, if_pos]
  intro entry lasts
  obtain ⟨d, -, own⟩ := List.mem_map.mp (mem_of_lastWrite (mem_lasting_iff.mp lasts))
  obtain rfl : d.entry = entry := own
  exact write?_entry d

theorem ofMap_of_perm (order : devices.Perm table.devices) :
    ofMap (devices.map Device.entry) = .ok table := by
  have reflects := reflects_ofMap (devices.map Device.entry)
  rw [writeMap?_entries] at reflects
  cases declared : ofMap (devices.map Device.entry) with
  | error fault =>
      rw [declared] at reflects
      cases reflects
  | ok other =>
      refine congrArg Except.ok (eq_of_find? fun name => ?_)
      rw [find?_of_ofMap (congrArg Except.toOption declared),
        lastWrite_of_graph (mem_entries_of_perm order)]

theorem ofJsonText_members (devices : List Device) :
    ofJsonText (Json.object (devices.map Device.member)).render =
      ofJson (.object (devices.map Device.member)) :=
  Json.decode_render ofJson (written_members devices)

theorem ofJsonText_members_iff (order : devices.Perm table.devices) :
    ofJsonText (Json.object (devices.map Device.member)).render = .ok table ↔ table.Spelled := by
  constructor
  · exact spelled_ofJsonText
  · intro spelled
    rw [ofJsonText_members, ofJson,
      entriesOfJson_members fun d member => spelled d (order.mem_iff.mp member), pure_bind,
      ofMap_of_perm order]
    rfl

theorem spelled_iff_own : table.Spelled ↔
    ∀ entry, entry ∈ table.entries → ∀ word, entry.2 = .declared word → Category.Own word := by
  rw [entries, List.forall_mem_map]
  exact forall₂_congr fun _ _ => Category.ofText?_spelling_iff

theorem spelling_eq_or_iff {entry : Text × Category} (member : entry ∈ table.entries) :
    entry.2.spelling = "or".toList ↔ entry.2 = .declared "or".toList := by
  constructor
  · intro spelled
    rcases Category.mem_builtIn_or_declared entry.2 with builtIn | ⟨word, declared⟩
    · have choice := Category.ofWord_spelling builtIn
      rw [spelled] at choice
      exact absurd choice.symm (entry_sound member).2
    · rw [declared] at spelled ⊢
      exact congrArg Category.declared spelled
  · intro handmade
    rw [handmade]
    rfl

def Operation.Read : Operation → Prop
  | insert _ category => ∃ s, Category.ofText? s = some category
  | overlay other => other.Reachable
  | ofMap entries => DeviceTable.Read entries
  | _ => True

theorem Reachable.attempt {operation : Operation} (reachable : table.Reachable)
    (read : operation.Read) (taken : operation.attempt table = some other) : other.Reachable := by
  cases operation with
  | clear =>
      cases taken
      exact .empty
  | ofSpelled pairs => exact .ofSpelled (Except.toOption_eq_some_iff.mp taken)
  | insert name category =>
      obtain ⟨s, spelled⟩ := read
      obtain ⟨d, declared, rfl⟩ := Option.map_eq_some_iff.mp taken
      have given : Device.declareSpelled name s = .ok d := by
        rw [Device.declareSpelled, spelled]
        exact Except.toOption_eq_some_iff.mp declared
      exact reachable.insert given
  | overlay other =>
      cases taken
      exact reachable.overlay read
  | ofMap entries => exact .ofMap read (Except.toOption_eq_some_iff.mp taken)
  | ofJsonText s => exact .json (Except.toOption_eq_some_iff.mp taken)
  | ofYamlText s => exact .yaml (Except.toOption_eq_some_iff.mp taken)

theorem Reachable.perform {operation : Operation} (reachable : table.Reachable)
    (read : operation.Read) : (table.perform operation).Reachable := by
  rw [DeviceTable.perform]
  cases taken : operation.attempt table with
  | none => exact reachable
  | some other => exact reachable.attempt read taken

theorem reachable_run {operations : List Operation}
    (read : ∀ operation, operation ∈ operations → operation.Read) :
    (run operations).Reachable := by
  have each : ∀ table : DeviceTable, table.Reachable →
      (operations.foldl DeviceTable.perform table).Reachable := by
    induction operations with
    | nil => exact fun _ => id
    | cons operation operations ih =>
        intro table reachable
        obtain ⟨first, later⟩ := List.forall_mem_cons.mp read
        exact ih later _ (reachable.perform first)
  exact each empty .empty

/-- Of what a run leaves in the table, only a category that is spelled like choices by hand is
written down like one. The table is read back from its JSON text, with its devices in any order,
exactly when each category that is no built-in one has a spelling of its own. After a run whose
categories were all read from text it is read back. -/
theorem run_reloads (operations : List Operation) :
    (∀ entry, entry ∈ (run operations).entries →
      (entry.2.spelling = "or".toList ↔ entry.2 = .declared "or".toList)) ∧
    (∀ devices : List Device, devices.Perm (run operations).devices →
      (ofJsonText (Json.object (devices.map Device.member)).render = .ok (run operations) ↔
        ∀ entry, entry ∈ (run operations).entries → ∀ word, entry.2 = .declared word →
          Category.Own word)) ∧
    ((∀ operation, operation ∈ operations → operation.Read) →
      (∀ entry, entry ∈ (run operations).entries → entry.2.spelling ≠ "or".toList) ∧
      ∀ devices : List Device, devices.Perm (run operations).devices →
        ofJsonText (Json.object (devices.map Device.member)).render = .ok (run operations)) := by
  refine ⟨fun _ => spelling_eq_or_iff, ?_, ?_⟩
  · intro devices order
    rw [ofJsonText_members_iff order, spelled_iff_own]
  · intro read
    have spelled : (run operations).Spelled := (reachable_run read).spelled
    have own := spelled_iff_own.mp spelled
    constructor
    · intro entry member choice
      exact (own entry member _ ((spelling_eq_or_iff member).mp choice)).apart_or rfl
    · intro devices order
      exact (ofJsonText_members_iff order).mpr spelled

theorem run_reloads_overlaid :
    ∃ spaced plain : List Operation,
      (run spaced).entries = [("A".toList, .declared " Siding".toList), ("B".toList, .track)] ∧
      (∀ entry, entry ∈ (run spaced).entries → entry.2.spelling ≠ "or".toList) ∧
      ofJsonText (run spaced).toJson.render ≠ .ok (run spaced) ∧
      (run plain).entries = [("A".toList, .declared "Siding".toList), ("B".toList, .track)] ∧
      ofJsonText "\x7b\"B\":\"track\",\"A\":\"Siding\"\x7d".toList = .ok (run plain) := by
  let siding : Device := ⟨"A".toList, .declared "Siding".toList, by decide, by decide⟩
  let track : Device := ⟨"B".toList, .track, by decide, by decide⟩
  let spaced : List Operation := [.insert "B".toList .track,
    .insert "A".toList (.declared " Siding".toList), .insert "C".toList .alternatives]
  let plain : List Operation := [.ofSpelled [("B".toList, "TRACK".toList)],
    .overlay (empty.insert siding), .insert "C".toList .alternatives]
  have handmade : (run spaced).entries =
      [("A".toList, .declared " Siding".toList), ("B".toList, .track)] := by decide +kernel
  have entries : (run plain).entries =
      [("A".toList, .declared "Siding".toList), ("B".toList, .track)] := by decide +kernel
  have devices : (run plain).devices = [siding, track] := by decide +kernel
  obtain ⟨lettered, reloads, -⟩ := run_reloads spaced
  have unlettered : ∀ entry, entry ∈ (run spaced).entries → entry.2.spelling ≠ "or".toList := by
    intro entry member choice
    have byHand := (lettered entry member).mp choice
    rw [handmade] at member
    rcases List.mem_pair.mp member with rfl | rfl <;> simp at byHand
  have given : Device.declareSpelled "A".toList "Siding".toList = .ok siding := rfl
  have read : ∀ operation, operation ∈ plain → operation.Read := by
    intro operation member
    simp only [plain, List.mem_cons, List.not_mem_nil, or_false] at member
    rcases member with rfl | rfl | rfl
    · trivial
    · exact .insert .empty given
    · exact ⟨"or".toList, rfl⟩
  refine ⟨spaced, plain, handmade, unlettered, ?_, entries, ?_⟩
  · intro reloaded
    have own := (reloads _ (.refl _)).mp reloaded ("A".toList, .declared " Siding".toList)
      (handmade ▸ List.mem_cons_self) _ rfl
    exact absurd own.trimmed (by decide)
  · exact ((run_reloads plain).2.2 read).2 [track, siding] (devices ▸ .swap _ _ _)

/-- A category is inserted as it is given. If its spelling is the one of choices then the table that
is written down is refused, and if it is that of another category then that one is read. -/
theorem run_not_reloaded :
    (∃ entry, entry ∈ (run [.insert "A".toList (.declared "or".toList)]).entries ∧
      entry.2.spelling = "or".toList) ∧
    ofJsonText (run [.insert "A".toList (.declared "or".toList)]).toJson.render =
      .error (.refused (.device "A".toList .reservedCategory)) ∧
    ofJsonText (run [.insert "A".toList (.declared "Track".toList)]).toJson.render =
      .ok (run [.insert "A".toList .track]) ∧
    run [.insert "A".toList (.declared "Track".toList)] ≠ run [.insert "A".toList .track] := by
  refine ⟨⟨_, List.mem_cons_self, rfl⟩, ?_, ?_, by decide⟩
  · rw [toJson_eq, ofJsonText_members]
    rfl
  · rw [toJson_eq, ofJsonText_members]
    rfl

end DeviceTable

end SignalBox
