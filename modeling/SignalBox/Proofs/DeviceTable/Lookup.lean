import SignalBox.Proofs.DeviceTable
import Mathlib.Data.List.Sort

namespace SignalBox

def Device.fault? (name : Text) (category : Category) : Option Declaration.Error :=
  if name.isBlank then some (.device name .blankName)
  else if category = .alternatives then some (.device name .reservedCategory)
  else none

theorem Device.declare_eq_error_iff {name : Text} {category : Category}
    {fault : Declaration.Error} :
    Device.declare name category = .error fault ↔ Device.fault? name category = some fault := by
  unfold Device.declare Device.fault?
  split
  · next blank => simp [blank]
  · next inked =>
      simp only [inked, Bool.false_eq_true, if_false]
      split <;> simp

namespace DeviceTable

variable {table other : DeviceTable} {d : Device} {name : Text} {category : Category}

theorem names_nodup (table : DeviceTable) : (table.devices.map Device.name).Nodup := by
  rw [List.Nodup, List.pairwise_map]
  apply table.ascending.imp
  intro d e lt same
  exact List.lt_irrefl e.name (same ▸ lt)

theorem exists_of_find? (found : table.find? name = some category) :
    ∃ d, d ∈ table.devices ∧ d.name = name ∧ d.category = category := by
  obtain ⟨d, first, own⟩ := Option.map_eq_some_iff.mp found
  exact ⟨d, List.mem_of_find?_eq_some first, of_decide_eq_true (List.find?_some first :), own⟩

theorem mem_devices_iff : d ∈ table.devices ↔ table.find? d.name = some d.category := by
  constructor
  · intro member
    cases first : table.devices.find? fun e => e.name = d.name with
    | none => exact absurd (decide_eq_true rfl) (List.find?_eq_none.mp first d member)
    | some e =>
        have same : e = d := List.inj_on_of_nodup_map table.names_nodup
          (List.mem_of_find?_eq_some first) member (of_decide_eq_true (List.find?_some first :))
        rw [find?, first, same]
        rfl
  · intro found
    obtain ⟨e, member, named, own⟩ := exists_of_find? found
    exact Device.ext named own ▸ member

theorem mem_entries_iff : (name, category) ∈ table.entries ↔ table.find? name = some category := by
  rw [entries, List.mem_map]
  constructor
  · rintro ⟨d, member, entry⟩
    cases entry
    exact mem_devices_iff.mp member
  · intro found
    obtain ⟨d, member, rfl, rfl⟩ := exists_of_find? found
    exact ⟨d, member, rfl⟩

theorem eq_of_find? (same : ∀ name, table.find? name = other.find? name) : table = other := by
  have irrefl : Std.Irrefl fun a b : Device => a.name < b.name := ⟨fun d => List.lt_irrefl d.name⟩
  have antisymm : Std.Antisymm fun a b : Device => a.name < b.name :=
    ⟨fun d e lt gt => absurd gt (List.lt_asymm lt)⟩
  have devices : table.devices = other.devices := by
    apply table.ascending.eq_of_mem_iff other.ascending
    intro d
    rw [mem_devices_iff, mem_devices_iff, same]
  cases table
  cases other
  cases devices
  rfl

/-- What the last of the writes to a name gives it. -/
def lastWrite (writes : List (Text × Category)) (name : Text) : Option Category :=
  writes.reverse.lookup name

section

variable {writes before after : List (Text × Category)}

theorem lastWrite_append :
    lastWrite (before ++ after) name = (lastWrite after name).or (lastWrite before name) := by
  rw [lastWrite, List.reverse_append, List.lookup_append]
  rfl

theorem lastWrite_cons {write : Text × Category} :
    lastWrite (write :: writes) name =
      (lastWrite writes name).or (if write.1 = name then some write.2 else none) := by
  have first : lastWrite [write] name = if write.1 = name then some write.2 else none := by
    by_cases own : write.1 = name
    · rw [if_pos own, ← own]
      exact List.lookup_cons_self
    · rw [if_neg own, lastWrite, List.reverse_singleton, List.lookup_cons,
        beq_false_of_ne (Ne.symm own)]
      rfl
  rw [← List.singleton_append, lastWrite_append, first]

theorem mem_of_lastWrite (last : lastWrite writes name = some category) :
    (name, category) ∈ writes := by
  induction writes with
  | nil => cases last
  | cons write writes ih =>
      rw [lastWrite_cons, Option.or_eq_some_iff] at last
      obtain later | ⟨-, own⟩ := last
      · exact List.mem_cons_of_mem _ (ih later)
      · split at own
        · next named =>
            cases named
            cases own
            exact List.mem_cons_self
        · cases own

theorem lastWrite_isSome_iff : (lastWrite writes name).isSome ↔ name ∈ writes.map Prod.fst := by
  induction writes with
  | nil => simp [lastWrite]
  | cons write writes ih =>
      rw [lastWrite_cons, Option.isSome_or, Bool.or_eq_true, ih, List.map_cons, List.mem_cons,
        or_comm]
      by_cases own : write.1 = name
      · simp [own]
      · simp [own, Ne.symm own]

theorem lastWrite_of_graph {map : Text → Option Category}
    (graph : ∀ write, write ∈ writes ↔ map write.1 = some write.2) (name : Text) :
    lastWrite writes name = map name := by
  cases last : lastWrite writes name with
  | some category => exact ((graph (name, category)).mp (mem_of_lastWrite last)).symm
  | none =>
      cases held : map name with
      | none => rfl
      | some category =>
          have member := List.mem_map_of_mem (f := Prod.fst) ((graph (name, category)).mpr held)
          rw [← lastWrite_isSome_iff, last] at member
          cases member

end

theorem lastWrite_entries (table : DeviceTable) (name : Text) :
    lastWrite table.entries name = table.find? name :=
  lastWrite_of_graph (fun _ => mem_entries_iff) name

theorem find?_foldl_insert (devices : List Device) (table : DeviceTable) (name : Text) :
    (devices.foldl insert table).find? name =
      (lastWrite (devices.map Device.entry) name).or (table.find? name) := by
  induction devices generalizing table with
  | nil => rfl
  | cons d devices ih =>
      rw [List.foldl_cons, ih, find?_insert, List.map_cons, lastWrite_cons, Option.or_assoc]
      congr 1
      change _ = Option.or (if d.name = name then some d.category else none) _
      split <;> rfl

theorem find?_overlay (table other : DeviceTable) (name : Text) :
    (table.overlay other).find? name = (other.find? name).or (table.find? name) := by
  rw [overlay, find?_foldl_insert, ← lastWrite_entries other]
  rfl

theorem find?_foldl_overlay (tables : List DeviceTable) (name : Text) :
    (tables.foldl overlay empty).find? name =
      tables.reverse.findSome? fun table => table.find? name := by
  rw [← List.foldr_reverse]
  induction tables.reverse with
  | nil => rfl
  | cons table earlier ih =>
      rw [List.foldr_cons, find?_overlay, ih, List.findSome?_cons]
      cases table.find? name <;> rfl

def declarePair (pair : Text × Text) : Except Declaration.Error Device :=
  Device.declareSpelled pair.1 pair.2

theorem ofSpelled_eq (pairs : List (Text × Text)) :
    ofSpelled pairs = (pairs.mapM declarePair).map fun devices => devices.foldl insert empty :=
  Except.foldlM_map_eq declarePair insert pairs empty

theorem foldl_insert_append (first second : List Device) :
    (first ++ second).foldl insert empty =
      (first.foldl insert empty).overlay (second.foldl insert empty) := by
  apply eq_of_find?
  intro name
  rw [List.foldl_append, find?_overlay, find?_foldl_insert, find?_foldl_insert second empty]
  exact congrArg (Option.or · _) (Option.or_none).symm

theorem ofSpelled_append (pairs later : List (Text × Text)) :
    ofSpelled (pairs ++ later) = (do
      let below ← ofSpelled pairs
      let above ← ofSpelled later
      pure (below.overlay above)) := by
  rw [ofSpelled_eq, ofSpelled_eq, ofSpelled_eq, List.mapM_append]
  cases pairs.mapM declarePair with
  | error fault => rfl
  | ok first =>
      cases later.mapM declarePair with
      | error fault => rfl
      | ok second => exact congrArg Except.ok (foldl_insert_append first second)

/-- What is wrong with a name and the spelling of its category. The spelling is blank, else the name
is, else the category is one that no device has. -/
def spelledFault? (pair : Text × Text) : Option Declaration.Error :=
  if pair.2.isBlank then some (.device pair.1 .blankCategory)
  else if pair.1.isBlank then some (.device pair.1 .blankName)
  else if pair.2.trim.lower = "or".toList then some (.device pair.1 .reservedCategory)
  else none

theorem declarePair_eq_error_iff (pair : Text × Text) (fault : Declaration.Error) :
    declarePair pair = .error fault ↔ spelledFault? pair = some fault := by
  obtain ⟨name, spelling⟩ := pair
  rw [declarePair, Device.declareSpelled, spelledFault?, Category.ofText?]
  by_cases blank : spelling.isBlank
  · simp [blank]
  · rw [if_neg blank, if_neg blank]
    change Device.declare name (Category.ofWord spelling.trim) = _ ↔ _
    rw [Device.declare_eq_error_iff, Device.fault?]
    simp only [Category.ofWord_eq_alternatives_iff]

theorem ofSpelled_eq_error_iff {pairs : List (Text × Text)} {fault : Declaration.Error} :
    ofSpelled pairs = .error fault ↔ pairs.findSome? spelledFault? = some fault := by
  rw [ofSpelled_eq, ← Except.mapM_eq_error_iff declarePair_eq_error_iff]
  cases pairs.mapM declarePair <;> simp [Except.map]

theorem spelledFault?_isSome_iff {pair : Text × Text} : (spelledFault? pair).isSome ↔
    pair.2.isBlank ∨ pair.1.isBlank ∨ pair.2.trim.lower = "or".toList := by
  rw [spelledFault?]
  split
  · next blank => exact iff_of_true rfl (.inl blank)
  · next inked =>
      split
      · next blank => exact iff_of_true rfl (.inr (.inl blank))
      · next named =>
          split
          · next choice => exact iff_of_true rfl (.inr (.inr choice))
          · next single =>
              exact iff_of_false nofun (not_or.mpr ⟨inked, not_or.mpr ⟨named, single⟩⟩)

theorem ofSpelled_fails_iff {pairs : List (Text × Text)} :
    (ofSpelled pairs).toOption = none ↔ ∃ pair, pair ∈ pairs ∧
      (pair.2.isBlank ∨ pair.1.isBlank ∨ pair.2.trim.lower = "or".toList) := by
  simp only [← spelledFault?_isSome_iff, ← List.findSome?_isSome_iff]
  cases declared : ofSpelled pairs with
  | error fault => simp [ofSpelled_eq_error_iff.mp declared, Except.toOption]
  | ok table =>
      cases found : pairs.findSome? spelledFault? with
      | none => simp [Except.toOption]
      | some fault => cases declared.symm.trans (ofSpelled_eq_error_iff.mpr found)

section

variable {pairs : List (Text × Text)} {devices : List Device}

theorem eq_of_declarePair {pair : Text × Text} {d : Device}
    (declared : declarePair pair = .ok d) :
    d.name = pair.1 ∧ Category.ofText? pair.2 = some d.category := by
  rw [declarePair, Device.declareSpelled] at declared
  cases spelled : Category.ofText? pair.2 with
  | none =>
      rw [spelled] at declared
      cases declared
  | some category =>
      rw [spelled] at declared
      obtain ⟨named, own⟩ := Device.declare_eq_ok_iff.mp declared
      exact ⟨named, congrArg some own.symm⟩

theorem lookup_of_declared
    (each : List.Forall₂ (fun pair d => declarePair pair = .ok d) pairs devices) (name : Text) :
    (devices.map Device.entry).lookup name = (pairs.lookup name).bind Category.ofText? := by
  induction each with
  | nil => rfl
  | @cons pair d pairs devices first later ih =>
      obtain ⟨named, own⟩ := eq_of_declarePair first
      rw [List.map_cons, Device.entry, List.lookup_cons, List.lookup_cons, named]
      by_cases same : name = pair.1
      · rw [beq_iff_eq.mpr same]
        exact own.symm
      · rw [beq_false_of_ne same]
        exact ih

theorem exists_of_ofSpelled (declared : ofSpelled pairs = .ok table) :
    ∃ devices, List.Forall₂ (fun pair d => declarePair pair = .ok d) pairs devices ∧
      table = devices.foldl insert empty := by
  rw [ofSpelled_eq] at declared
  cases mapped : pairs.mapM declarePair with
  | error error =>
      rw [mapped] at declared
      cases declared
  | ok devices =>
      rw [mapped] at declared
      cases declared
      exact ⟨devices, Except.forall₂_of_mapM mapped, rfl⟩

theorem find?_of_ofSpelled (declared : ofSpelled pairs = .ok table) (name : Text) :
    table.find? name = (pairs.reverse.lookup name).bind Category.ofText? := by
  obtain ⟨devices, each, rfl⟩ := exists_of_ofSpelled declared
  have reversed := List.forall₂_reverse_iff.mpr each
  rw [find?_foldl_insert, lastWrite, ← List.map_reverse, lookup_of_declared reversed]
  exact Option.or_none

theorem declares_of_ofSpelled (declared : ofSpelled pairs = .ok table) (name : Text) :
    (table.find? name).isSome ↔ name ∈ pairs.map Prod.fst := by
  obtain ⟨devices, each, rfl⟩ := exists_of_ofSpelled declared
  have names : (devices.map Device.entry).map Prod.fst = pairs.map Prod.fst := by
    clear declared
    induction each with
    | nil => rfl
    | cons first later ih => exact congrArg₂ List.cons (eq_of_declarePair first).1 ih
  rw [find?_foldl_insert, ← names, ← lastWrite_isSome_iff]
  change ((lastWrite (devices.map Device.entry) name).or none).isSome ↔ _
  rw [Option.or_none]

end

end DeviceTable

end SignalBox
