import SignalBox.Proofs.Naming
import SignalBox.Proofs.Retention

/-! The names that nothing tells apart. Every condition of such a name has a finding, however often
an exception has copied it; without exceptions the findings are the names of these conditions, one
by one and in order. A name that the table itself leaves unclassified is never among them. -/

namespace SignalBox

open Text Formula Formula.Reading

def Diagnostic.unclassified (findings : List Diagnostic) : List Text :=
  (findings.filter fun d => d.kind = .unclassifiedName).map fragment

theorem Diagnostic.unclassified_append (xs ys : List Diagnostic) :
    unclassified (xs ++ ys) = unclassified xs ++ unclassified ys := by
  rw [unclassified, List.filter_append, List.map_append]
  rfl

namespace Reader

open Condition Diagnostic

/-- The condition is unclassified, and the table does not declare it to be. -/
def IsUnknown (r : Reader) (c : Condition) : Prop :=
  c.category = .unclassified ∧ r.devices.declares c.name = false

instance (r : Reader) (c : Condition) : Decidable (r.IsUnknown c) :=
  inferInstanceAs (Decidable (_ ∧ _))

def unknownNames (r : Reader) (cs : List Condition) : List Text :=
  ((forestPreorder cs).filter (r.IsUnknown ·)).map Condition.name

section Names

variable {r : Reader} {cs ds continuation : List Condition} {name : Text}
  {xs ys told others : List Text}

theorem append_subset_append (left : xs ⊆ told) (right : ys ⊆ others) :
    xs ++ ys ⊆ told ++ others :=
  List.append_subset_of_subset_of_subset (List.subset_append_of_subset_left _ left)
    (List.subset_append_of_subset_right _ right)

theorem mem_unknownNames_iff :
    name ∈ r.unknownNames cs ↔ ∃ c, c ∈ forestPreorder cs ∧ r.IsUnknown c ∧ c.name = name := by
  simp [unknownNames, and_assoc]

theorem unknownNames_append (r : Reader) (cs ds : List Condition) :
    r.unknownNames (cs ++ ds) = r.unknownNames cs ++ r.unknownNames ds := by
  rw [unknownNames, forestPreorder_append, List.filter_append, List.map_append]
  rfl

theorem unknownNames_choice (r : Reader) (name : Text) (station : UInt32) (partialLock : Bool)
    (branches : List Condition) :
    r.unknownNames [.choice name station partialLock branches] = r.unknownNames branches := by
  have known : ¬ r.IsUnknown (.choice name station partialLock branches) :=
    fun unknown => nomatch unknown.1
  rw [unknownNames, forestPreorder_cons, forestPreorder_nil, List.append_nil, preorder_eq,
    List.filter_cons_of_neg (by simpa using known)]
  rfl

theorem mem_unknownNames_iff_census :
    name ∈ r.unknownNames cs ↔ ∃ c, c ∈ census cs ∧ r.IsUnknown c ∧ c.name = name := by
  rw [mem_unknownNames_iff, census]
  constructor
  · rintro ⟨c, member, unknown, named⟩
    exact ⟨c.bare, List.mem_map_of_mem member, unknown, named⟩
  · rintro ⟨_, member, unknown, named⟩
    obtain ⟨c, own, rfl⟩ := List.mem_map.mp member
    exact ⟨c, own, unknown, named⟩

theorem mem_census_continueWith {d : Condition}
    (member : d ∈ census (continueWith continuation cs)) :
    d ∈ census cs ∨ d ∈ census continuation := by
  have counted := count_census_continueWith continuation cs d
  have positive := List.count_pos_iff.mpr member
  by_cases early : 0 < (census cs).count d
  · exact .inl (List.count_pos_iff.mp early)
  · right
    apply List.count_pos_iff.mp
    apply Nat.pos_of_ne_zero
    intro none
    rw [none, Nat.mul_zero] at counted
    omega

theorem unknownNames_continueWith_subset (r : Reader) (continuation cs : List Condition) :
    r.unknownNames (continueWith continuation cs) ⊆
      r.unknownNames cs ++ r.unknownNames continuation := by
  intro name member
  obtain ⟨c, listed, unknown⟩ := mem_unknownNames_iff_census.mp member
  rw [List.mem_append, mem_unknownNames_iff_census, mem_unknownNames_iff_census]
  exact (mem_census_continueWith listed).imp (fun own => ⟨c, own, unknown⟩)
    fun own => ⟨c, own, unknown⟩

end Names

section Readings

variable {r : Reader} {context : Context} {s token : Text} {conditions : List Condition}
  {added : List Diagnostic} {outcome : Except Formula.Error (List Condition)}

theorem unclassified_nameFindings (r : Reader) (context : Context) (decoration : Decoration)
    (token : Text) :
    unclassified (r.nameFindings context token) =
      r.unknownNames [r.namedCondition context decoration token] := by
  have alone : forestPreorder [r.namedCondition context decoration token] =
      [r.namedCondition context decoration token] := rfl
  have whole : (r.identify token).1 = .unclassified → (r.identify token).2 = token := by
    intro unclassified
    rcases r.recorded_identify token with same | ⟨timer, _⟩
    · exact same
    · rw [unclassified] at timer
      contradiction
  have unknown : r.IsUnknown (r.namedCondition context decoration token) ↔
      (r.identify token).1 = .unclassified ∧ r.devices.declares token = false := by
    constructor
    · rintro ⟨unclassified, undeclared⟩
      exact ⟨unclassified, whole unclassified ▸ undeclared⟩
    · rintro ⟨unclassified, undeclared⟩
      refine ⟨unclassified, ?_⟩
      change r.devices.declares (r.identify token).2 = false
      rw [whole unclassified]
      exact undeclared
  rw [unknownNames, alone, nameFindings]
  by_cases found : (r.identify token).1 = .unclassified ∧ r.devices.declares token = false
  · rw [if_pos found, List.filter_cons_of_pos (by simpa using unknown.mpr found)]
    exact congrArg (fun name => [name]) (whole found.1).symm
  · rw [if_neg found, List.filter_cons_of_neg (by simpa using mt unknown.mp found)]
    rfl

theorem unclassified_exceptionFindings (context : Context) (s : Text)
    (base continuation : Operand) (before after : List Condition) :
    unclassified (exceptionFindings context s base continuation before after) = [] := by
  rw [exceptionFindings]
  split <;> rfl

structure Tells (r : Reader) (s : Text) (conditions : List Condition) (added : List Diagnostic) :
    Prop where
  covered : r.unknownNames conditions ⊆ unclassified added
  exact : '但' ∉ s → unclassified added = r.unknownNames conditions

theorem Tells.append {x y : Text} {cs ds : List Condition} {xs ys : List Diagnostic}
    (left : r.Tells x cs xs) (right : r.Tells y ds ys) (plain : '但' ∉ s → '但' ∉ x ∧ '但' ∉ y) :
    r.Tells s (cs ++ ds) (xs ++ ys) where
  covered := by
    rw [unknownNames_append, unclassified_append]
    exact append_subset_append left.covered right.covered
  exact absent := by
    rw [unknownNames_append, unclassified_append, left.exact (plain absent).1,
      right.exact (plain absent).2]

theorem tells_nil (r : Reader) (s : Text) : r.Tells s [] [] :=
  ⟨List.Subset.refl _, fun _ => rfl⟩

theorem tells_name (r : Reader) (context : Context) (decoration : Decoration) (token s : Text) :
    r.Tells s [r.namedCondition context decoration token] (r.nameFindings context token) := by
  have same := r.unclassified_nameFindings context decoration token
  exact ⟨same ▸ List.Subset.refl _, fun _ => same⟩

theorem tells_parts {operands : List Operand} {parts : List (List Condition × List Diagnostic)}
    (inside : ∀ o, o ∈ operands → o.text <:+: s)
    (each : List.Forall₂ (fun o part => r.Tells o.text part.1 part.2) operands parts) :
    r.Tells s (parts.flatMap Prod.fst) (parts.flatMap Prod.snd) := by
  induction each with
  | nil => exact r.tells_nil s
  | @cons o part operands parts first later ih =>
      rw [List.flatMap_cons, List.flatMap_cons]
      apply first.append (ih fun p member => inside p (List.mem_cons_of_mem _ member))
      intro plain
      exact ⟨fun member => plain ((inside o List.mem_cons_self).subset member), plain⟩

theorem Tells.exception {t u : Text} {before after : List Condition}
    {earlier later : List Diagnostic} {base continuation : Operand}
    (first : r.Tells t before earlier) (second : r.Tells u after later) (marked : '但' ∈ s) :
    r.Tells s (continueWith after before)
      (earlier ++ (later ++ exceptionFindings context s base continuation before after)) where
  covered := by
    rw [unclassified_append, unclassified_append, unclassified_exceptionFindings, List.append_nil]
    exact List.Subset.trans (r.unknownNames_continueWith_subset after before)
      (append_subset_append first.covered second.covered)
  exact plain := absurd marked plain

theorem yields_tells (r : Reader) (context : Context) (s : Text) :
    Yields (r.read context s) (r.Tells s) := by
  refine r.read_yields (motive := fun _ s conditions added => r.Tells s conditions added)
    ?_ ?_ ?_ ?_ ?_ context s
  · intro _ s _
    exact r.tells_nil s
  · intro context s decoration token _
    exact r.tells_name context decoration token s
  · intro _ s operands parts found each
    have inside : ∀ o, o ∈ (cut s).operands → o.text <:+: s := fun o => infix_of_operand
    rw [found] at inside
    exact tells_parts inside each
  · intro context s operands parts found each
    have inside : ∀ o, o ∈ (cut s).operands → o.text <:+: s := fun o => infix_of_operand
    rw [found] at inside
    obtain ⟨covered, exact⟩ := tells_parts inside each
    rw [← r.unknownNames_choice s context.station context.partialLock] at covered exact
    exact ⟨covered, exact⟩
  · intro _ s base continuation before after earlier later found first second
    exact first.exception second (exception_parts found).1

theorem Concludes.tells (concludes : r.Concludes context s (.ok conditions) added) :
    r.Tells s conditions added := by
  obtain ⟨others, found, tells⟩ := r.yields_tells context s [] conditions _ (concludes [])
  rwa [List.append_cancel_left found]

theorem Concludes.undeclared (concludes : r.Concludes context s outcome added) :
    ∀ d, d ∈ added → d.kind = .unclassifiedName → r.devices.declares d.fragment = false :=
  concludes.forall_added (fun _ _ unknown _ => unknown) fun _ _ _ _ => nofun

end Readings

/-- No name that is declared has a finding, and every unknown condition of a reading that comes
through has one with its name. Where no exception copies conditions, there are as many findings as
unknown conditions, in their order. -/
theorem readInto_unclassified (r : Reader) (s : Text) :
    (∀ log station partialLock, ∃ added,
      (r.readInto log { station, partialLock } s).2 = log ++ added ∧
      (∀ d, d ∈ added → d.kind = .unclassifiedName → r.devices.declares d.fragment = false) ∧
      ∀ conditions, (r.readInto log { station, partialLock } s).1 = .ok conditions →
        (∀ c, c ∈ forestPreorder conditions → c.category = .unclassified →
          r.devices.declares c.name = false →
          ∃ d, d ∈ added ∧ d.kind = .unclassifiedName ∧ d.fragment = c.name) ∧
        ('但' ∉ s → Report.unclassified ⟨conditions, added⟩ =
          ((forestPreorder conditions).filter fun c =>
            c.category = .unclassified ∧ r.devices.declares c.name = false).map Condition.name)) ∧
    ∀ conditions, '但' ∉ s → r.parse s = .ok conditions →
      (r.report s).unclassified = ((forestPreorder conditions).filter fun c =>
        c.category = .unclassified ∧ r.devices.declares c.name = false).map Condition.name := by
  constructor
  · intro log station partialLock
    obtain ⟨outcome, added, concludes, _⟩ := r.exists_concludes { station, partialLock } s
    refine ⟨added, congrArg Prod.snd (concludes log), concludes.undeclared, ?_⟩
    intro conditions accepted
    rw [concludes log] at accepted
    cases accepted
    refine ⟨?_, concludes.tells.exact⟩
    intro c member unclassified undeclared
    have told := concludes.tells.covered (mem_unknownNames_iff.mpr
      ⟨c, member, ⟨unclassified, undeclared⟩, rfl⟩)
    obtain ⟨d, listed, named⟩ := List.mem_map.mp told
    rw [List.mem_filter, decide_eq_true_iff] at listed
    exact ⟨d, listed.1, listed.2, named⟩
  · intro conditions plain accepted
    obtain ⟨outcome, added, concludes, _⟩ := r.exists_concludes {} s
    rw [parse, concludes []] at accepted
    cases accepted
    rw [report, concludes []]
    exact concludes.tells.exact plain

theorem readInto_unclassified_copied :
    ∃ r : Reader, r.devices.find? ['Z'] = some .unclassified ∧
      (∃ conditions c d, (r.readInto [] {} "A又はB但C Z".toList).1 = .ok conditions ∧
        c ∈ forestPreorder conditions ∧ c.category = .unclassified ∧
        r.devices.declares c.name = false ∧ c.name = ['C'] ∧
        d ∈ (r.readInto [] {} "A又はB但C Z".toList).2 ∧ d.kind = .unclassifiedName ∧
        d.fragment = c.name) ∧
      ∃ conditions, '但' ∉ "B (A)又はB Z".toList ∧ r.parse "B (A)又はB Z".toList = .ok conditions ∧
        conditions.length = 1 ∧
        (r.report "B (A)又はB Z".toList).unclassified = [['B'], ['A'], ['B']] := by
  let r : Reader := ⟨DeviceTable.empty.insert ⟨['Z'], .unclassified, by decide, by decide⟩, {}⟩
  let unclassified (name : Text) : Condition := { category := .unclassified, station := 0, name }
  let followed (name : Text) : Condition :=
    (unclassified name).followedBy [unclassified ['C'], unclassified ['Z']]
  let branches : List Condition :=
    [unclassified ['B'], { unclassified ['A'] with reverse := true }, unclassified ['B'],
      unclassified ['Z']]
  have copied : (r.readInto [] {} "A又はB但C Z".toList).1 =
      .ok [.choice "A又はB".toList 0 false [followed ['A'], followed ['B']]] :=
    Except.toOption_eq_some_iff.mp (by decide +kernel)
  have plain : r.parse "B (A)又はB Z".toList = .ok [.choice "B (A)又はB Z".toList 0 false branches] :=
    Except.toOption_eq_some_iff.mp (by decide +kernel)
  obtain ⟨added, found, -, law⟩ := (r.readInto_unclassified _).1 [] 0 false
  obtain ⟨d, member, kind, fragment⟩ :=
    (law _ copied).1 (unclassified ['C']) (by decide) rfl (by decide)
  rw [List.nil_append] at found
  refine ⟨r, by decide, ⟨_, unclassified ['C'], d, copied, by decide, rfl, by decide, rfl,
    found ▸ member, kind, fragment⟩, _, by decide, plain, rfl, ?_⟩
  exact (r.readInto_unclassified _).2 _ (by decide) plain

end Reader

end SignalBox
