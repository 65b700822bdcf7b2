import SignalBox.DeviceTable.Yaml
import SignalBox.Proofs.Category
import SignalBox.Proofs.Outcome

/-! Tables that come from declarations written as text. Each category in them is read back from its
spelling. -/

namespace SignalBox

namespace DeviceTable

def Read (entries : List (Text × Category)) : Prop :=
  ∀ e, e ∈ entries → ∃ s, Category.ofText? s = some e.2

inductive Reachable : DeviceTable → Prop
  | empty : Reachable .empty
  | ofSpelled {pairs table} (declared : ofSpelled pairs = .ok table) : Reachable table
  | insert {table name spelling d} (reachable : Reachable table)
      (declared : Device.declareSpelled name spelling = .ok d) : Reachable (table.insert d)
  | overlay {table other} (below : Reachable table) (above : Reachable other) :
      Reachable (table.overlay other)
  | ofMap {entries table} (read : Read entries) (declared : ofMap entries = .ok table) :
      Reachable table
  | json {s table} (read : ofJsonText s = .ok table) : Reachable table
  | yaml {s table} (read : ofYamlText s = .ok table) : Reachable table

def Spelled (table : DeviceTable) : Prop :=
  ∀ d, d ∈ table.devices → Category.ofText? d.category.spelling = some d.category

variable {table other : DeviceTable} {d : Device}

theorem Spelled.insert (spelled : table.Spelled)
    (own : Category.ofText? d.category.spelling = some d.category) : (table.insert d).Spelled := by
  intro e member
  rcases mem_place member with rfl | earlier
  · exact own
  · exact spelled e earlier

theorem Spelled.overlay (below : table.Spelled) (above : other.Spelled) :
    (table.overlay other).Spelled := by
  have each : ∀ devices : List Device, (∀ d, d ∈ devices → Category.ofText? d.category.spelling =
      some d.category) → ∀ base : DeviceTable, base.Spelled →
        (devices.foldl DeviceTable.insert base).Spelled := by
    intro devices
    induction devices with
    | nil =>
        intro _ base spelled
        exact spelled
    | cons d devices ih =>
        intro own base spelled
        obtain ⟨first, later⟩ := List.forall_mem_cons.mp own
        exact ih later _ (spelled.insert first)
  exact each other.devices above table below

theorem Spelled.foldlM {ε α : Type} {entries : List α} (declare : α → Except ε Device)
    (each : ∀ e, e ∈ entries → ∀ d, declare e = .ok d →
      Category.ofText? d.category.spelling = some d.category)
    (spelled : table.Spelled)
    (folded : entries.foldlM (fun table e => (declare e).map table.insert) table = .ok other) :
    other.Spelled := by
  induction entries generalizing table with
  | nil =>
      cases folded
      exact spelled
  | cons e entries ih =>
      rw [List.foldlM_cons] at folded
      obtain ⟨first, later⟩ := List.forall_mem_cons.mp each
      cases declared : declare e with
      | error fault =>
          rw [declared] at folded
          contradiction
      | ok d =>
          rw [declared] at folded
          exact ih later (spelled.insert (first d declared)) folded

theorem ofText?_of_declareSpelled {name spelling : Text}
    (declared : Device.declareSpelled name spelling = .ok d) :
    Category.ofText? spelling = some d.category := by
  rw [Device.declareSpelled] at declared
  split at declared
  · contradiction
  · next category read =>
      rw [(Device.declare_eq_ok_iff.mp declared).2]
      exact read

theorem spelled_empty : empty.Spelled :=
  nofun

theorem spelled_ofSpelled {pairs : List (Text × Text)} (declared : ofSpelled pairs = .ok table) :
    table.Spelled := by
  refine spelled_empty.foldlM
    (fun pair : Text × Text => Device.declareSpelled pair.1 pair.2) ?_ declared
  intro pair _ d declared
  exact Category.ofText?_spelling (ofText?_of_declareSpelled declared)

theorem mem_of_mem_lastOfEach {e : Text × Category} {entries : List (Text × Category)}
    (member : e ∈ lastOfEach entries) : e ∈ entries := by
  induction entries with
  | nil => contradiction
  | cons first rest ih =>
      rw [lastOfEach] at member
      split at member
      · exact List.mem_cons_of_mem _ (ih member)
      · rcases List.mem_cons.mp member with rfl | later
        · exact List.mem_cons_self
        · exact List.mem_cons_of_mem _ (ih later)

theorem spelled_ofMap {entries : List (Text × Category)} (read : Read entries)
    (declared : ofMap entries = .ok table) : table.Spelled := by
  refine spelled_empty.foldlM (fun e : Text × Category => Device.declare e.1 e.2) ?_ declared
  intro e member d declared
  obtain ⟨s, spelling⟩ := read e (mem_of_mem_lastOfEach member)
  rw [(Device.declare_eq_ok_iff.mp declared).2]
  exact Category.ofText?_spelling spelling

theorem read_nil : Read [] :=
  nofun

theorem Read.cons {name s : Text} {category : Category} {entries : List (Text × Category)}
    (read : Category.ofText? s = some category) (later : Read entries) :
    Read ((name, category) :: entries) :=
  List.forall_mem_cons.mpr ⟨⟨s, read⟩, later⟩

theorem exists_text_of_decodeCategory {value : Json} {category : Category}
    (decoded : Json.decodeCategory value = .ok category) :
    ∃ s, Category.ofText? s = some category := by
  obtain ⟨s, _, named⟩ := Except.bind_eq_ok decoded
  refine ⟨s, ?_⟩
  split at named
  · next found =>
      cases named
      exact found
  · contradiction

theorem read_entriesOfJson {members : List (Text × Json)} {entries : List (Text × Category)}
    (decoded : entriesOfJson members = .ok entries) : Read entries := by
  induction members generalizing entries with
  | nil =>
      cases decoded
      exact read_nil
  | cons m members ih =>
      rw [entriesOfJson] at decoded
      obtain ⟨name, _, decoded⟩ := Except.bind_eq_ok decoded
      obtain ⟨category, named, decoded⟩ := Except.bind_eq_ok decoded
      obtain ⟨later, behind, decoded⟩ := Except.bind_eq_ok decoded
      obtain ⟨s, read⟩ := exists_text_of_decodeCategory named
      cases decoded
      exact (ih behind).cons read

theorem read_categoriesOf {pairs : List (Text × Text)} {entries : List (Text × Category)}
    (decoded : categoriesOf pairs = .ok entries) : Read entries := by
  induction pairs generalizing entries with
  | nil =>
      cases decoded
      exact read_nil
  | cons pair pairs ih =>
      rw [categoriesOf] at decoded
      split at decoded
      · contradiction
      · next category read =>
          obtain ⟨later, behind, decoded⟩ := Except.bind_eq_ok decoded
          cases decoded
          exact (ih behind).cons read

theorem spelled_ofEntries {entries : List (Text × Category)} (read : Read entries)
    (accepted : (match ofMap entries with
      | .ok table => pure table
      | .error error => throw (.refused error) : Json.Decoded DeviceTable) = .ok table) :
    table.Spelled := by
  split at accepted
  · next declared =>
      cases accepted
      exact spelled_ofMap read declared
  · contradiction

theorem spelled_ofJson {value : Json} (decoded : ofJson value = .ok table) : table.Spelled := by
  cases value with
  | object members =>
      rw [ofJson] at decoded
      obtain ⟨entries, read, accepted⟩ := Except.bind_eq_ok decoded
      exact spelled_ofEntries (read_entriesOfJson read) accepted
  | _ => contradiction

theorem spelled_ofJsonText {s : Text} (read : ofJsonText s = .ok table) : table.Spelled := by
  obtain ⟨declared, decoded, ended⟩ := Except.bind_eq_ok read
  split at ended
  · cases ended
    exact spelled_ofJson decoded
  · contradiction

theorem spelled_ofYamlText {s : Text} (read : ofYamlText s = .ok table) : table.Spelled := by
  rw [ofYamlText, ofFlatMap] at read
  obtain ⟨entries, decoded, rest⟩ := Except.bind_eq_ok read
  dsimp only at rest
  by_cases incomplete : (!(Yaml.FlatMap.ofText s).complete) = true
  · rw [if_pos incomplete] at rest
    contradiction
  · rw [if_neg incomplete] at rest
    exact spelled_ofEntries (read_categoriesOf decoded) rest

theorem Reachable.spelled (reachable : table.Reachable) : table.Spelled := by
  induction reachable with
  | empty => exact spelled_empty
  | ofSpelled declared => exact spelled_ofSpelled declared
  | insert reachable declared spelled =>
      exact spelled.insert (Category.ofText?_spelling (ofText?_of_declareSpelled declared))
  | overlay below above spelledBelow spelledAbove => exact spelledBelow.overlay spelledAbove
  | ofMap read declared => exact spelled_ofMap read declared
  | json read => exact spelled_ofJsonText read
  | yaml read => exact spelled_ofYamlText read

end DeviceTable

end SignalBox
