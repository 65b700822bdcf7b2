import SignalBox.Condition.Json
import SignalBox.Proofs.Category
import SignalBox.Proofs.Condition.Tree
import SignalBox.Proofs.Json.Decode

namespace SignalBox

namespace Condition

open Json

variable {c : Condition} {cs : List Condition} {room : Nat} {draft next : Draft} {field : Field}
  {value : Json} {rest : List (Text × Json)}

theorem encode_key (field : Field) : Quoted.encode field.key = field.key := by
  cases field <;> decide

theorem ofKey?_key (field : Field) : Field.ofKey? field.key = some field := by
  cases field <;> decide

theorem ofMembers_entry (absent : draft.has field = false) :
    ofMembers room draft ((field.key, value) :: rest) = (do
      let next ← ofField room draft field value
      ofMembers room next rest) := by
  have key : decodeLexeme field.key = pure field.key := by
    rw [← encode_key, decodeLexeme_encode, encode_key]
  rw [ofMembers, key, pure_bind, ofKey?_key]
  simp only [absent, Bool.false_eq_true, if_false]

theorem ofMembers_field (absent : draft.has field = false)
    (read : ofField room draft field value = pure next) :
    ofMembers room draft ((field.key, value) :: rest) = ofMembers room next rest := by
  rw [ofMembers_entry absent, read, pure_bind]

def Spelled (c : Condition) : Prop :=
  ∀ d, d ∈ c.preorder → Category.ofText? d.category.spelling = some d.category

theorem spelled_iff :
    c.Spelled ↔ Category.ofText? c.category.spelling = some c.category ∧
      ∀ d, d ∈ c.children → d.Spelled := by
  rw [Spelled, preorder_eq, List.forall_mem_cons]
  apply and_congr_right
  intro _
  constructor
  · intro spelled d child e below
    exact spelled e (mem_forestPreorder_iff.mpr ⟨d, child, below⟩)
  · intro spelled e below
    obtain ⟨d, child, belowChild⟩ := mem_forestPreorder_iff.mp below
    exact spelled d child e belowChild

def entry (f : Field × Json) : Text × Json :=
  (f.1.key, f.2)

def ownFields (c : Condition) : List (Field × Json) :=
  [(.type, .ofText c.category.spelling), (.station, .ofNat c.station.toNat),
    (.name, .ofText c.name), (.teihan, .bool c.reverse), (.sokatsu, .bool c.summary),
    (.kata, .bool c.partialLock)]

def childFields : List Condition → List (Field × Json)
  | [] => []
  | first :: rest => [(.execute, .array (forestToJson (first :: rest)))]

theorem toJson_eq (c : Condition) :
    c.toJson = .object ((c.ownFields ++ childFields c.children).map entry) := by
  obtain ⟨category, station, name, reverse, summary, partialLock, children⟩ := c
  cases children <;> rfl

theorem ofMembers_own {category : Category} (room : Nat) (rest : List (Field × Json))
    (spelled : Category.ofText? c.category.spelling = some category) :
    ofMembers room {} ((c.ownFields ++ rest).map entry) =
      ofMembers room ⟨some category, some c.station, some c.name, some c.reverse,
        some c.summary, some c.partialLock, none⟩ (rest.map entry) := by
  have category := decodeCategory_ofText spelled
  have station := decodeNat_ofNat c.station.toNat_lt
  have name := decodeText_ofText c.name
  simp only [ownFields, List.cons_append, List.nil_append, List.map_cons, entry]
  rw [ofMembers_field rfl (by rw [ofField, category, pure_bind]),
    ofMembers_field rfl (by rw [ofField, station, pure_bind, UInt32.ofNat_toNat]),
    ofMembers_field rfl (by rw [ofField, name, pure_bind]),
    ofMembers_field rfl (by rw [ofField, decodeBool, pure_bind]),
    ofMembers_field rfl (by rw [ofField, decodeBool, pure_bind]),
    ofMembers_field rfl (by rw [ofField, decodeBool, pure_bind])]

theorem ofMembers_own_blank (room : Nat) (rest : List (Field × Json))
    (blank : Category.ofText? c.category.spelling = none) :
    ofMembers room {} ((c.ownFields ++ rest).map entry) = throw (.refused .blankCategory) := by
  simp only [ownFields, List.cons_append, List.map_cons, entry]
  rw [ofMembers_entry rfl, ofField, decodeCategory_ofText_blank blank]
  rfl

def childrenRead (room : Nat) : List Condition → Decoded (List Condition)
  | [] => pure []
  | first :: rest => do ofForest (← enter room) (forestToJson (first :: rest))

/-- Two containers are opened for every generation: the condition and the array around its
children. -/
theorem ofJson_toJson_eq (room : Nat) (c : Condition) :
    ofJson room c.toJson = (do
      let inner ← enter room
      let category ← decodeCategory (.ofText c.category.spelling)
      let children ← childrenRead inner c.children
      pure { c with category := category, children := children }) := by
  rw [toJson_eq, ofJson]
  cases room with
  | zero => rfl
  | succ inner =>
      rw [enter, pure_bind, pure_bind]
      cases spelled : Category.ofText? c.category.spelling with
      | none =>
          rw [ofMembers_own_blank inner _ spelled, decodeCategory_ofText_blank spelled]
          rfl
      | some category =>
          rw [ofMembers_own inner _ spelled, decodeCategory_ofText spelled, pure_bind]
          cases c.children with
          | nil => rfl
          | cons first rest =>
              rw [childFields, List.map_cons, entry, ofMembers_entry rfl, ofField, childrenRead]
              cases inner with
              | zero => rfl
              | succ space =>
                  rw [enter, pure_bind, pure_bind]
                  cases ofForest space (forestToJson (first :: rest)) <;> rfl

theorem childrenRead_iff
    (forest : ∀ space, ofForest space (forestToJson cs) = pure cs ↔
      2 * forestHeight cs ≤ space + 1 ∧ ∀ c, c ∈ cs → c.Spelled) :
    childrenRead room cs = pure cs ↔
      2 * forestHeight cs ≤ room ∧ ∀ c, c ∈ cs → c.Spelled := by
  cases cs with
  | nil => simp [childrenRead, forestHeight]
  | cons first rest =>
      have high : 0 < forestHeight (first :: rest) := by
        rw [forestHeight, height_eq]
        omega
      rw [childrenRead]
      cases room with
      | zero =>
          constructor
          · intro read
            cases read
          · rintro ⟨fits, -⟩
            omega
      | succ space =>
          rw [enter, pure_bind]
          exact forest space

theorem ofJson_iff_of_children {room : Nat}
    (forest : ∀ space, ofForest space (forestToJson c.children) = pure c.children ↔
      2 * forestHeight c.children ≤ space + 1 ∧ ∀ d, d ∈ c.children → d.Spelled) :
    ofJson room c.toJson = pure c ↔ 2 * c.height ≤ room + 1 ∧ c.Spelled := by
  rw [ofJson_toJson_eq, height_eq, spelled_iff]
  cases room with
  | zero =>
      refine iff_of_false nofun ?_
      rintro ⟨fits, -⟩
      omega
  | succ inner =>
      have children : childrenRead inner c.children = pure c.children ↔
          2 * forestHeight c.children ≤ inner ∧ ∀ d, d ∈ c.children → d.Spelled :=
        childrenRead_iff forest
      have fits : 2 * (forestHeight c.children + 1) ≤ inner + 1 + 1 ↔
          2 * forestHeight c.children ≤ inner := by omega
      rw [enter, pure_bind, fits, and_left_comm, ← children]
      cases spelled : Category.ofText? c.category.spelling with
      | none =>
          rw [decodeCategory_ofText_blank spelled]
          exact iff_of_false nofun fun read => nomatch read.1
      | some category =>
          rw [decodeCategory_ofText spelled, pure_bind, Option.some_inj]
          constructor
          · intro read
            cases found : childrenRead inner c.children with
            | error fault =>
                rw [found] at read
                cases read
            | ok others =>
                rw [found] at read
                have same := Except.ok.inj read
                exact ⟨congrArg Condition.category same,
                  congrArg Except.ok (congrArg Condition.children same)⟩
          · rintro ⟨rfl, found⟩
            rw [found, pure_bind]
            cases c
            rfl

theorem cons_eq_pure_iff {x : Decoded Condition} {y : Decoded (List Condition)} :
    (do
      let first ← x
      let later ← y
      pure (first :: later)) = (pure (c :: cs) : Decoded (List Condition)) ↔
      x = pure c ∧ y = pure cs := by
  cases x with
  | error fault => exact iff_of_false nofun fun both => nomatch both.1
  | ok first =>
      cases y with
      | error fault => exact iff_of_false nofun fun both => nomatch both.2
      | ok later =>
          change Except.ok (first :: later) = Except.ok (c :: cs) ↔
            Except.ok first = Except.ok c ∧ Except.ok later = Except.ok cs
          rw [Except.ok.injEq, Except.ok.injEq, Except.ok.injEq, List.cons.injEq]

mutual

theorem ofJson_toJson_iff : (c : Condition) → (room : Nat) →
    (ofJson room c.toJson = pure c ↔ 2 * c.height ≤ room + 1 ∧ c.Spelled)
  | ⟨_, _, _, _, _, _, children⟩, _ =>
      ofJson_iff_of_children fun space => ofForest_forestToJson_iff children space

theorem ofForest_forestToJson_iff : (cs : List Condition) → (room : Nat) →
    (ofForest room (forestToJson cs) = pure cs ↔
      2 * forestHeight cs ≤ room + 1 ∧ ∀ c, c ∈ cs → c.Spelled)
  | [], room => by
      simp [forestToJson, ofForest, forestHeight]
  | c :: cs, room => by
      have fits : 2 * forestHeight (c :: cs) ≤ room + 1 ↔
          2 * c.height ≤ room + 1 ∧ 2 * forestHeight cs ≤ room + 1 := by
        rw [forestHeight]
        omega
      rw [forestToJson, ofForest, cons_eq_pure_iff, ofJson_toJson_iff c room,
        ofForest_forestToJson_iff cs room, fits, List.forall_mem_cons]
      exact and_and_and_comm

end

theorem written_entries {fields : List (Field × Json)} (each : ∀ f, f ∈ fields → Written f.2) :
    Written (.object (fields.map entry)) := by
  refine .object ?_ ?_
  · intro m member
    obtain ⟨f, _, rfl⟩ := List.mem_map.mp member
    exact ⟨f.1.key, (encode_key f.1).symm⟩
  · intro m member
    obtain ⟨f, listed, rfl⟩ := List.mem_map.mp member
    exact each f listed

theorem written_ownFields (c : Condition) : ∀ f, f ∈ c.ownFields → Written f.2 := by
  intro f member
  simp only [ownFields, List.mem_cons, List.not_mem_nil, or_false] at member
  rcases member with rfl | rfl | rfl | rfl | rfl | rfl
  · exact .string _
  · exact .number _
  · exact .string _
  · exact .bool _
  · exact .bool _
  · exact .bool _

mutual

theorem written_toJson : (c : Condition) → Written c.toJson
  | ⟨category, station, name, reverse, summary, partialLock, children⟩ => by
      have forest := written_forestToJson children
      rw [toJson_eq]
      apply written_entries
      apply List.forall_mem_append.mpr ⟨written_ownFields _, ?_⟩
      cases children with
      | nil => exact nofun
      | cons first rest => exact List.forall_mem_singleton.mpr (.array forest)

theorem written_forestToJson : (cs : List Condition) →
    ∀ value, value ∈ forestToJson cs → Written value
  | [], _, member => by
      rw [forestToJson] at member
      contradiction
  | c :: cs, value, member => by
      rw [forestToJson] at member
      rcases List.mem_cons.mp member with rfl | later
      · exact written_toJson c
      · exact written_forestToJson cs value later

end

theorem ofText_toJson (c : Condition) : ofText c.toJson.render = ofJson nestingLimit c.toJson :=
  decode_render _ c.written_toJson

theorem ofText_render (spelled : c.Spelled) (fits : 2 * c.height ≤ nestingLimit + 1) :
    ofText c.toJson.render = pure c := by
  rw [ofText_toJson]
  exact (ofJson_toJson_iff c nestingLimit).mpr ⟨fits, spelled⟩

theorem spelled_iff_own :
    c.Spelled ↔ ∀ d, d ∈ c.preorder → ∀ word, d.category = .declared word → Category.Own word :=
  forall₂_congr fun _ _ => Category.ofText?_spelling_iff

/-- A condition is read back from its JSON text exactly when no way down in it is longer than 64
conditions and each category that is no built-in one has a spelling of its own. A category that was
read from text has such a spelling. -/
theorem read_back_iff :
    (∀ c : Condition, ofText c.toJson.render = .ok c ↔
      (∀ path : List Condition,
        (c :: path).IsChain (fun parent child => child ∈ parent.children) →
          (c :: path).length ≤ 64) ∧
      ∀ d, d ∈ c.preorder → ∀ word, d.category = .declared word → Category.Own word) ∧
    ∀ s category, Category.ofText? s = some category →
      decode decodeCategory (Json.ofText category.spelling).render = .ok category := by
  constructor
  · intro c
    have room : 2 * c.height ≤ nestingLimit + 1 ↔ c.height ≤ 64 := by
      rw [nestingLimit]
      omega
    rw [ofText_toJson, ← spelled_iff_own, ← height_le_iff, ← room]
    exact ofJson_toJson_iff c nestingLimit
  · intro s category read
    rw [decode_render _ (.string _)]
    exact decodeCategory_ofText (Category.ofText?_spelling read)

theorem read_back_iff_limit :
    ∃ high : Condition, high.height = 64 ∧ ofText high.toJson.render = .ok high ∧
      ofText (high.followedBy [high]).toJson.render ≠ .ok (high.followedBy [high]) ∧
      Category.ofText? " SIGNAL".toList = some .signal ∧
      decode decodeCategory (Json.ofText Category.signal.spelling).render = .ok .signal := by
  let siding : Condition :=
    { category := .declared "Siding".toList, station := 1, name := ['A'], reverse := true }
  let high := Nat.repeat (fun c => siding.followedBy [c]) 63 siding
  obtain ⟨trees, categories⟩ := read_back_iff
  have height : high.height = 64 := by decide +kernel
  have sidings : ∀ d, d ∈ high.preorder → d.category = .declared "Siding".toList := by
    decide +kernel
  refine ⟨high, height, (trees high).mpr ⟨height_le_iff.mp (Nat.le_of_eq height), ?_⟩, ?_, rfl,
    categories " SIGNAL".toList .signal rfl⟩
  · intro d member word declared
    cases (sidings d member).symm.trans declared
    exact Category.ofText?_declared_iff.mp rfl
  · intro read
    have low := height_le_iff.mpr ((trees _).mp read).1
    rw [height_followedBy, forestHeight, height] at low
    omega

end Condition

end SignalBox
