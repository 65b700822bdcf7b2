import SignalBox.Proofs.Condition.Json
import SignalBox.Proofs.DeviceTable
import SignalBox.Proofs.Retention

/-! Trees of conditions stay low however long a formula is. Behind the mark of an exception nothing
is grouped, so what goes on is flat; attached to names, to branches or to whole choices it makes a
tree of four generations at most, and such a tree comes back from its JSON text. -/

namespace SignalBox

open Text Formula Formula.Reading

namespace Condition

variable {c : Condition} {cs continuation : List Condition}

def Leaf (c : Condition) : Prop :=
  c.isChoice = false ∧ c.children = []

def Flat (cs : List Condition) : Prop :=
  (∀ c, c ∈ cs → c.Leaf) ∨
    ∃ c, cs = [c] ∧ c.isChoice = true ∧ ∀ branch, branch ∈ c.children → branch.Leaf

/-- A choice may be one generation higher than another condition. -/
def Low (c : Condition) : Prop :=
  c.height ≤ if c.isChoice then 4 else 3

theorem Leaf.height_eq_one (leaf : c.Leaf) : c.height = 1 := by
  rw [height_eq, leaf.2]
  rfl

theorem Flat.forestHeight_le (flat : Flat cs) : forestHeight cs ≤ 2 := by
  rw [forestHeight_le_iff]
  rcases flat with leaves | ⟨choice, rfl, _, leaves⟩
  · intro c member
    rw [(leaves c member).height_eq_one]
    decide
  · intro c member
    have branches : forestHeight choice.children ≤ 1 := by
      rw [forestHeight_le_iff]
      exact fun branch among => Nat.le_of_eq (leaves branch among).height_eq_one
    rw [List.mem_singleton.mp member, height_eq]
    omega

theorem Low.of_height_le (low : c.height ≤ 2) : c.Low := by
  rw [Low]
  split <;> omega

theorem Low.followedBy (low : c.Low) (flat : forestHeight continuation ≤ 2) :
    (c.followedBy continuation).Low := by
  rw [Low] at low ⊢
  rw [height_followedBy]
  change max _ _ ≤ if c.isChoice = true then 4 else 3
  by_cases choice : c.isChoice = true
  · rw [if_pos choice] at low ⊢
    omega
  · rw [if_neg choice] at low ⊢
    omega

theorem Low.branches {choice : Condition} (low : choice.Low)
    (flat : forestHeight continuation ≤ 2) (leading : choice.isChoice = true) :
    Low { choice with children := choice.children.map (·.followedBy continuation) } := by
  rw [Low, if_pos leading, height_eq] at low
  rw [Low]
  change height _ ≤ if choice.isChoice = true then 4 else 3
  rw [if_pos leading, height_eq]
  have branches : forestHeight (choice.children.map (·.followedBy continuation)) ≤ 3 := by
    rw [forestHeight_le_iff]
    intro c member
    obtain ⟨branch, among, rfl⟩ := List.mem_map.mp member
    have := forestHeight_le_iff.mp (Nat.le_refl (forestHeight choice.children)) branch among
    rw [height_followedBy]
    omega
  exact Nat.succ_le_succ branches

end Condition

namespace Reader

open Condition

section Conditions

variable {cs continuation : List Condition}

theorem low_continueWith (flat : forestHeight continuation ≤ 2) (low : ∀ c, c ∈ cs → c.Low) :
    ∀ c, c ∈ continueWith continuation cs → c.Low := by
  cases cs with
  | nil => exact nofun
  | cons first rest =>
      rw [continueWith]
      split
      · next leading =>
          obtain ⟨here, later⟩ := List.forall_mem_cons.mp low
          exact List.forall_mem_cons.mpr ⟨here.branches flat leading, later⟩
      · intro c member
        obtain ⟨d, among, rfl⟩ := List.mem_map.mp member
        exact (low d among).followedBy flat

theorem spelled_followedBy {c : Condition} (spelled : c.Spelled)
    (follows : ∀ d, d ∈ continuation → d.Spelled) : (c.followedBy continuation).Spelled := by
  obtain ⟨own, below⟩ := spelled_iff.mp spelled
  exact spelled_iff.mpr ⟨own, List.forall_mem_append.mpr ⟨below, follows⟩⟩

theorem spelled_continueWith (follows : ∀ d, d ∈ continuation → d.Spelled)
    (spelled : ∀ c, c ∈ cs → c.Spelled) : ∀ c, c ∈ continueWith continuation cs → c.Spelled := by
  have each : ∀ ds : List Condition, (∀ d, d ∈ ds → d.Spelled) →
      ∀ d, d ∈ ds.map (·.followedBy continuation) → d.Spelled := by
    intro ds spelled d member
    obtain ⟨e, among, rfl⟩ := List.mem_map.mp member
    exact spelled_followedBy (spelled e among) follows
  cases cs with
  | nil => exact nofun
  | cons first rest =>
      rw [continueWith]
      split
      · obtain ⟨here, later⟩ := List.forall_mem_cons.mp spelled
        obtain ⟨own, below⟩ := spelled_iff.mp here
        exact List.forall_mem_cons.mpr ⟨spelled_iff.mpr ⟨own, each _ below⟩, later⟩
      · exact each (first :: rest) spelled

end Conditions

section Readings

variable {r : Reader} {context : Context} {s : Text} {conditions : List Condition}
  {outcome : Except Formula.Error (List Condition)} {added : List Diagnostic}

theorem leaf_namedCondition (r : Reader) (context : Context) (decoration : Decoration)
    (token : Text) : (r.namedCondition context decoration token).Leaf :=
  ⟨r.isChoice_namedCondition _ _ _, rfl⟩

theorem Concludes.leaves (concludes : r.Concludes context s outcome added)
    (undivided : Undivided s) (single : ¬ alternativeMark <:+: s) :
    ∀ conditions, outcome = .ok conditions → ∀ c, c ∈ conditions → c.Leaf := by
  refine concludes.induction (motive := fun _ s outcome _ =>
    Undivided s → ¬ alternativeMark <:+: s → ∀ conditions, outcome = .ok conditions →
      ∀ c, c ∈ conditions → c.Leaf) ?_ undivided single
  intro context s outcome added step undivided single conditions ok
  cases step.success ok with
  | blank => exact nofun
  | name => exact List.forall_mem_singleton.mpr (r.leaf_namedCondition _ _ _)
  | sequence _ found each =>
      refine each.forall_results rfl ?_
      intro o member own findings held
      have operand : o ∈ (cut s).operands := by
        rw [found]
        exact member
      exact held.2 (undivided.operand operand)
        (fun inside => single (inside.trans (infix_of_operand operand))) own rfl
  | alternatives _ found => exact absurd (alternatives_parts found).2.1 single
  | exception _ found => exact absurd (exception_parts found).1 undivided.exception

theorem leaves_of_alternatives {operands : List Operand} {branches : List Condition}
    (found : cut s = .alternatives operands)
    (each : Gathered (fun o => r.Concludes (context.enter o) o.text) operands
      (.ok branches) added) : ∀ c, c ∈ branches → c.Leaf := by
  obtain ⟨undivided, _, apart⟩ := alternatives_parts found
  refine each.forall_results rfl ?_
  intro o member own findings concludes
  have operand : o ∈ (cut s).operands := by
    rw [found]
    exact member
  exact concludes.leaves (undivided.operand operand) (apart o member) own rfl

theorem Concludes.flat (concludes : r.Concludes context s (.ok conditions) added)
    (undivided : Undivided s) : Flat conditions := by
  by_cases single : ¬ alternativeMark <:+: s
  · exact .inl (concludes.leaves undivided single conditions rfl)
  · -- Alternatives are all that an undivided text is cut into here, and it is cut only once.
    have found : cut s =
        .alternatives ((pieces alternativeMark s).map (Operand.ofPiece .inside)) := by
      have contained : contains alternativeMark s = true :=
        (contains_eq_true_iff (by simp [alternativeMark])).mpr (Classical.not_not.mp single)
      rw [cut_undivided undivided, Cut.undivided, if_pos contained]
    cases concludes.step.success rfl with
    | blank => exact .inl (List.forall_mem_nil _)
    | name _ other => cases found.symm.trans other
    | sequence _ other => cases found.symm.trans other
    | alternatives _ other each => exact .inr ⟨_, rfl, rfl, leaves_of_alternatives other each⟩
    | exception _ other => cases found.symm.trans other

theorem Concludes.low (concludes : r.Concludes context s outcome added) :
    ∀ conditions, outcome = .ok conditions → ∀ c, c ∈ conditions → c.Low := by
  refine concludes.induction (motive := fun _ _ outcome _ =>
    ∀ conditions, outcome = .ok conditions → ∀ c, c ∈ conditions → c.Low) ?_
  intro context s outcome added step conditions ok
  cases step.success ok with
  | blank => exact nofun
  | @name decoration token =>
      have leaf := r.leaf_namedCondition context decoration token
      exact List.forall_mem_singleton.mpr (.of_height_le (by rw [leaf.height_eq_one]; decide))
  | sequence _ found each =>
      refine each.forall_results rfl ?_
      intro o member own findings held
      exact held.2 own rfl
  | @alternatives _ branches _ _ found each =>
      have leaves := leaves_of_alternatives found (each.mono fun _ _ _ _ held => held.1)
      have flat : Flat [Condition.choice s context.station context.partialLock branches] :=
        .inr ⟨_, rfl, rfl, leaves⟩
      have low := forestHeight_le_iff.mp flat.forestHeight_le
      exact fun c member => .of_height_le (low c member)
  | exception _ found first second =>
      have flat := second.1.flat (exception_parts found).2.2
      exact low_continueWith flat.forestHeight_le (first.2 _ rfl)

theorem spelled_identify (r : Reader) (table : r.devices.Spelled) (name : Text) :
    Category.ofText? (r.identify name).1.spelling = some (r.identify name).1 := by
  rw [identify]
  split
  · next category found =>
      obtain ⟨device, listed, rfl⟩ := Option.map_eq_some_iff.mp found
      exact table device (List.mem_of_find?_eq_some listed)
  · repeat' split
    all_goals exact Category.ofText?_builtIn (by simp [Category.builtIn])

theorem Concludes.spelled (concludes : r.Concludes context s outcome added)
    (table : r.devices.Spelled) :
    ∀ conditions, outcome = .ok conditions → ∀ c, c ∈ conditions → c.Spelled := by
  refine concludes.induction (motive := fun _ _ outcome _ =>
    ∀ conditions, outcome = .ok conditions → ∀ c, c ∈ conditions → c.Spelled) ?_
  intro context s outcome added step conditions ok
  have parts : ∀ {operands : List Operand} {results : List Condition},
      Gathered (fun o outcome added => r.Concludes (context.enter o) o.text outcome added ∧
        ∀ conditions, outcome = .ok conditions → ∀ c, c ∈ conditions → c.Spelled)
        operands (.ok results) added → ∀ c, c ∈ results → c.Spelled := by
    intro operands results each
    refine each.forall_results rfl ?_
    intro o member own findings held
    exact held.2 own rfl
  cases step.success ok with
  | blank => exact nofun
  | name =>
      exact List.forall_mem_singleton.mpr (spelled_iff.mpr ⟨r.spelled_identify table _, nofun⟩)
  | sequence _ found each => exact parts each
  | alternatives _ found each =>
      refine List.forall_mem_singleton.mpr (spelled_iff.mpr ⟨?_, parts each⟩)
      exact Category.ofText?_builtIn (by decide : Category.alternatives ∈ Category.builtIn)
  | exception _ found first second =>
      exact spelled_continueWith (second.2 _ rfl) (first.2 _ rfl)

end Readings

/-- A formula of any length and nesting comes to trees of at most four generations. What is attached
behind an exception is flat, and every condition is read back from its JSON text. -/
theorem parse_shallow (r : Reader) (s : Text) (conditions : List Condition)
    (reachable : r.devices.Reachable) (accepted : r.parse s = .ok conditions) :
    (∀ c, c ∈ conditions → ∀ path : List Condition,
      (c :: path).IsChain (fun parent child => child ∈ parent.children) →
        (c :: path).length ≤ 4) ∧
    (∀ place t base continuation, (place, t) ∈ visits {} s →
      cut t = .exception base continuation →
        ∃ after later,
          r.Concludes (place.enter continuation) continuation.text (.ok after) later ∧
            Flat after) ∧
    ∀ c, c ∈ conditions → Condition.ofText c.toJson.render = .ok c := by
  have reading : r.readInto [] {} s = (.ok conditions, (r.readInto [] {} s).2) :=
    Prod.ext accepted rfl
  obtain ⟨added, _, concludes⟩ := concludes_of_readInto reading
  have high : ∀ c, c ∈ conditions → c.height ≤ 4 := by
    intro c member
    have low := concludes.low conditions rfl c member
    rw [Low] at low
    split at low <;> omega
  refine ⟨?_, ?_, ?_⟩
  · intro c member path descends
    exact Nat.le_trans (length_le_height path descends) (high c member)
  · intro place t base continuation visited found
    obtain ⟨after, later, second, _⟩ :=
      concludes.settled visited conditions rfl base continuation found
    exact ⟨after, later, second, second.flat (exception_parts found).2.2⟩
  · intro c member
    apply ofText_render (concludes.spelled reachable.spelled conditions rfl c member)
    have := high c member
    rw [Json.nestingLimit]
    omega

theorem parse_shallow_four_generations :
    ∃ table conditions, DeviceTable.ofSpelled [("A".toList, " Siding ".toList)] = .ok table ∧
      (⟨table, {}⟩ : Reader).parse "A又はB但C又はD".toList = .ok conditions ∧
      (∃ c, c ∈ conditions ∧ c.height = 4) ∧
      (∀ c, c ∈ conditions → ∀ path : List Condition,
        (c :: path).IsChain (fun parent child => child ∈ parent.children) →
          (c :: path).length ≤ 4) ∧
      ∀ c, c ∈ conditions → Condition.ofText c.toJson.render = .ok c := by
  let device : Device := ⟨['A'], .declared "Siding".toList, by decide, by decide⟩
  let exception : Condition := .choice "C又はD".toList 0 false
    [{ category := .unclassified, station := 0, name := ['C'] },
      { category := .unclassified, station := 0, name := ['D'] }]
  let conditions : List Condition := [.choice "A又はB".toList 0 false
    [{ category := device.category, station := 0, name := ['A'], children := [exception] },
      { category := .unclassified, station := 0, name := ['B'], children := [exception] }]]
  have declared : DeviceTable.ofSpelled [("A".toList, " Siding ".toList)] =
      .ok (DeviceTable.empty.insert device) := rfl
  have accepted : (⟨DeviceTable.empty.insert device, {}⟩ : Reader).parse "A又はB但C又はD".toList =
      .ok conditions := Except.toOption_eq_some_iff.mp (by decide +kernel)
  obtain ⟨low, _, readBack⟩ := parse_shallow ⟨DeviceTable.empty.insert device, {}⟩ _ _
    (.ofSpelled declared) accepted
  exact ⟨_, conditions, declared, accepted, ⟨_, List.mem_cons_self, by decide +kernel⟩, low,
    readBack⟩

end Reader

end SignalBox
