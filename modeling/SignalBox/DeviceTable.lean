import SignalBox.Category

namespace SignalBox

inductive Declaration.Fault where
  | blankCategory
  | blankName
  | reservedCategory
deriving DecidableEq, Repr

inductive Declaration.Error where
  /-- A category stands alone and its text is blank. -/
  | blankCategory
  | device (name : Text) (fault : Declaration.Fault)
deriving DecidableEq, Repr

def Declaration.blankCategoryMessage : String :=
  "Invalid condition type: empty type name"

def Declaration.Fault.message : Declaration.Fault → String
  | .blankCategory => Declaration.blankCategoryMessage
  | .blankName => "empty name"
  | .reservedCategory => "'or' is reserved for parsed alternatives"

def Declaration.Error.message : Declaration.Error → String
  | .blankCategory => Declaration.blankCategoryMessage
  | .device name fault => s!"Invalid name table entry '{String.ofList name}': {fault.message}"

/-! A device is a name and the category declared for it. Choices arise from formulas alone, so no
device has their category. -/

@[ext] structure Device where
  name : Text
  category : Category
  named : name.isBlank = false
  single : category ≠ .alternatives
deriving DecidableEq

def Device.entry (d : Device) : Text × Category :=
  (d.name, d.category)

def Device.declare (name : Text) (category : Category) : Except Declaration.Error Device :=
  match hname : name.isBlank with
  | true => .error (.device name .blankName)
  | false =>
      if hcategory : category = .alternatives then .error (.device name .reservedCategory)
      else .ok ⟨name, category, hname, hcategory⟩

/-- The spelling of the category is looked at before the name. -/
def Device.declareSpelled (name spelling : Text) : Except Declaration.Error Device :=
  match Category.ofText? spelling with
  | none => .error (.device name .blankCategory)
  | some category => Device.declare name category

theorem Device.declare_eq_ok_iff {name : Text} {category : Category} {d : Device} :
    Device.declare name category = .ok d ↔ d.name = name ∧ d.category = category := by
  unfold Device.declare
  constructor
  · intro h
    split at h
    · contradiction
    · split at h
      · contradiction
      · cases h
        exact ⟨rfl, rfl⟩
  · rintro ⟨rfl, rfl⟩
    split
    · next h => exact absurd h (by simp [d.named])
    · rw [dif_neg d.single]

/-! A device table holds its devices in ascending order of their names, each name once, so tables
that declare the same are equal. -/

structure DeviceTable where
  devices : List Device
  ascending : devices.Pairwise fun a b => a.name < b.name
deriving DecidableEq

namespace DeviceTable

def empty : DeviceTable where
  devices := []
  ascending := .nil

def find? (table : DeviceTable) (name : Text) : Option Category :=
  (table.devices.find? fun d => d.name = name).map Device.category

def declares (table : DeviceTable) (name : Text) : Bool :=
  (table.find? name).isSome

def size (table : DeviceTable) : Nat :=
  table.devices.length

def isEmpty (table : DeviceTable) : Bool :=
  table.devices.isEmpty

def entries (table : DeviceTable) : List (Text × Category) :=
  table.devices.map Device.entry

def place (d : Device) : List Device → List Device
  | [] => [d]
  | e :: rest =>
      if d.name < e.name then d :: e :: rest
      else if d.name = e.name then d :: rest
      else e :: place d rest

theorem mem_place {d e : Device} {devices : List Device} (h : e ∈ place d devices) :
    e = d ∨ e ∈ devices := by
  induction devices with
  | nil => exact .inl (List.mem_singleton.mp h)
  | cons f rest ih =>
      rw [place] at h
      split at h
      · exact List.mem_cons.mp h
      · split at h
        · rcases List.mem_cons.mp h with rfl | h
          · exact .inl rfl
          · exact .inr (List.mem_cons_of_mem _ h)
        · rcases List.mem_cons.mp h with rfl | h
          · exact .inr List.mem_cons_self
          · exact (ih h).imp_right (List.mem_cons_of_mem _)

theorem place_ascending (d : Device) {devices : List Device}
    (h : devices.Pairwise fun a b => a.name < b.name) :
    (place d devices).Pairwise fun a b => a.name < b.name := by
  induction devices with
  | nil => exact List.pairwise_singleton ..
  | cons e rest ih =>
      obtain ⟨first, later⟩ := List.pairwise_cons.mp h
      rw [place]
      split
      · next lt =>
          refine List.pairwise_cons.mpr ⟨?_, h⟩
          intro f hf
          rcases List.mem_cons.mp hf with rfl | hf
          · exact lt
          · exact List.lt_trans lt (first f hf)
      · next notLt =>
          split
          · next same => exact List.pairwise_cons.mpr ⟨fun f hf => same ▸ first f hf, later⟩
          · next differ =>
              refine List.pairwise_cons.mpr ⟨?_, ih later⟩
              intro f hf
              rcases mem_place hf with rfl | hf
              · exact (Std.lt_trichotomy e.name f.name).resolve_right
                  (not_or.mpr ⟨Ne.symm differ, notLt⟩)
              · exact first f hf

def insert (table : DeviceTable) (d : Device) : DeviceTable where
  devices := place d table.devices
  ascending := place_ascending d table.ascending

theorem find?_place (d : Device) (name : Text) (devices : List Device) :
    ((place d devices).find? fun e => e.name = name) =
      if d.name = name then some d else devices.find? fun e => e.name = name := by
  induction devices with
  | nil => by_cases h : d.name = name <;> simp [place, h]
  | cons e rest ih =>
      rw [place]
      split
      · by_cases h : d.name = name <;> simp [h]
      · split
        · next same => by_cases h : e.name = name <;> simp [same, h]
        · next differ =>
            rw [List.find?_cons, List.find?_cons, ih]
            by_cases h : d.name = name
            · simp [h, show e.name ≠ name from fun he => differ (h.trans he.symm)]
            · simp [h]

theorem find?_insert (table : DeviceTable) (d : Device) (name : Text) :
    (table.insert d).find? name =
      if d.name = name then some d.category else table.find? name := by
  rw [find?, insert, find?_place]
  split <;> rfl

/-- The devices of the second table win. -/
def overlay (table other : DeviceTable) : DeviceTable :=
  other.devices.foldl insert table

def ofSpelled (pairs : List (Text × Text)) : Except Declaration.Error DeviceTable :=
  pairs.foldlM (fun table (name, spelling) =>
    (Device.declareSpelled name spelling).map table.insert) empty

end DeviceTable

end SignalBox
