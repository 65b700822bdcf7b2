import SignalBox.Proofs.Condition.Tree
import SignalBox.Proofs.Visit

/-! What becomes of an exception. Its conditions go on under the conditions that they are attached
to and stay there, whatever is read around them; or a finding says that there is nothing to attach
them to. One case is left out: a choice without branches takes an exception and holds it nowhere. -/

namespace SignalBox

open Text Formula Formula.Reading

namespace Condition

variable {c d : Condition} {cs continuation : List Condition}

def bare (c : Condition) : Condition :=
  { c with children := [] }

def census (cs : List Condition) : List Condition :=
  (forestPreorder cs).map bare

theorem census_append (xs ys : List Condition) : census (xs ++ ys) = census xs ++ census ys := by
  rw [census, forestPreorder_append, List.map_append]
  rfl

theorem census_cons (c : Condition) (cs : List Condition) :
    census (c :: cs) = c.bare :: (census c.children ++ census cs) := by
  rw [census, forestPreorder_cons, preorder_eq, List.map_append, List.map_cons]
  rfl

theorem count_census_followedBy (cs continuation : List Condition) (d : Condition) :
    (census (cs.map (·.followedBy continuation))).count d =
      (census cs).count d + cs.length * (census continuation).count d := by
  induction cs with
  | nil => simp
  | cons c cs ih =>
      have same : (c.followedBy continuation).bare = c.bare := rfl
      have children : (c.followedBy continuation).children = c.children ++ continuation := rfl
      rw [List.map_cons, census_cons, census_cons, same, children, census_append]
      simp only [List.count_cons, List.count_append, ih, List.length_cons, Nat.succ_mul]
      omega

end Condition

namespace Reader

open Condition

def takers : List Condition → List Condition
  | [] => []
  | first :: rest => if first.isChoice then first.children else first :: rest

/-- The condition is a child of one of these, or of a branch of a choice among them. -/
def Holds (conditions : List Condition) (d : Condition) : Prop :=
  ∃ c, c ∈ conditions ∧
    ((c.isChoice = false ∧ d ∈ c.children) ∨
      (c.isChoice = true ∧ ∃ branch, branch ∈ c.children ∧ d ∈ branch.children))

section Conditions

variable {cs ds continuation : List Condition} {c d : Condition}

theorem count_census_continueWith (continuation cs : List Condition) (d : Condition) :
    (census (continueWith continuation cs)).count d =
      (census cs).count d + (takers cs).length * (census continuation).count d := by
  cases cs with
  | nil => simp [continueWith, takers]
  | cons first rest =>
      rw [continueWith, takers]
      split
      · have branches := count_census_followedBy first.children continuation d
        rw [census_cons, census_cons]
        simp only [List.count_cons, List.count_append, branches, bare]
        omega
      · exact count_census_followedBy (first :: rest) continuation d

theorem Holds.mono (holds : Holds cs d) (more : cs ⊆ ds) : Holds ds d := by
  obtain ⟨c, member, held⟩ := holds
  exact ⟨c, more member, held⟩

theorem Holds.exists_child (holds : Holds cs d) : ∃ c, c ∈ forestPreorder cs ∧ d ∈ c.children := by
  obtain ⟨c, member, held⟩ := holds
  rcases held with ⟨_, child⟩ | ⟨_, branch, among, child⟩
  · exact ⟨c, mem_forestPreorder_iff.mpr ⟨c, member, c.mem_preorder_self⟩, child⟩
  · refine ⟨branch, mem_forestPreorder_iff.mpr ⟨c, member, ?_⟩, child⟩
    rw [preorder_eq]
    apply List.mem_cons_of_mem
    exact mem_forestPreorder_iff.mpr ⟨branch, among, branch.mem_preorder_self⟩

theorem holds_followedBy (single : c.isChoice = false) (member : c ∈ cs)
    (follows : d ∈ continuation) :
    Holds (cs.map (·.followedBy continuation)) d := by
  refine ⟨c.followedBy continuation, List.mem_map_of_mem member, .inl ⟨single, ?_⟩⟩
  exact List.mem_append_right _ follows

theorem Holds.followedBy (holds : Holds cs d) (continuation : List Condition) :
    Holds (cs.map (·.followedBy continuation)) d := by
  obtain ⟨c, member, held⟩ := holds
  refine ⟨c.followedBy continuation, List.mem_map_of_mem member, ?_⟩
  rcases held with ⟨single, child⟩ | ⟨choice, branch, among, child⟩
  · exact .inl ⟨single, List.mem_append_left _ child⟩
  · exact .inr ⟨choice, branch, List.mem_append_left _ among, child⟩

theorem Holds.continueWith (holds : Holds cs d) (continuation : List Condition) :
    Holds (continueWith continuation cs) d := by
  cases cs with
  | nil => exact holds
  | cons first rest =>
      rw [Reader.continueWith]
      split
      · next leading =>
          obtain ⟨c, member, held⟩ := holds
          rcases List.mem_cons.mp member with rfl | later
          · refine ⟨_, List.mem_cons_self, .inr ⟨leading, ?_⟩⟩
            rcases held with ⟨single, _⟩ | ⟨_, branch, among, child⟩
            · rw [leading] at single
              contradiction
            · exact ⟨branch.followedBy continuation, List.mem_map_of_mem among,
                List.mem_append_left _ child⟩
          · exact ⟨c, List.mem_cons_of_mem _ later, held⟩
      · exact holds.followedBy continuation

theorem holds_continueWith (taken : takers cs ≠ []) (follows : d ∈ continuation) :
    Holds (continueWith continuation cs) d := by
  cases cs with
  | nil => contradiction
  | cons first rest =>
      rw [takers] at taken
      rw [continueWith]
      split
      · next leading =>
          rw [if_pos leading] at taken
          obtain ⟨branch, among⟩ := List.exists_mem_of_ne_nil _ taken
          exact ⟨_, List.mem_cons_self, .inr ⟨leading, branch.followedBy continuation,
            List.mem_map_of_mem among, List.mem_append_right _ follows⟩⟩
      · next single =>
          exact holds_followedBy (Bool.not_eq_true _ ▸ single) List.mem_cons_self follows

end Conditions

section Readings

variable {r : Reader} {context place : Context} {s t : Text} {conditions : List Condition}
  {outcome : Except Formula.Error (List Condition)} {added : List Diagnostic} {d : Condition}

/-- A choice without branches comes first in front of an exception that has conditions. -/
def Drops (r : Reader) (place : Context) (t : Text) : Prop :=
  ∃ base continuation before after earlier later, cut t = .exception base continuation ∧
    r.Concludes (place.enter base) base.text (.ok before) earlier ∧
    r.Concludes (place.enter continuation) continuation.text (.ok after) later ∧
    before ≠ [] ∧ after ≠ [] ∧ takers before = []

/-- If the text is an exception, its conditions are kept, or warned of, or dropped. -/
def Settled (r : Reader) (kept : Condition → Prop) (added : List Diagnostic) (place : Context)
    (t : Text) : Prop :=
  ∀ base continuation, cut t = .exception base continuation →
    ∃ after later,
      r.Concludes (place.enter continuation) continuation.text (.ok after) later ∧
        (after = [] ∨ detachedException place t base continuation ∈ added ∨
          (∀ d, d ∈ after → kept d) ∨ r.Drops place t)

theorem Settled.mono {kept more : Condition → Prop} {others : List Diagnostic}
    (settled : r.Settled kept added place t) (imp : ∀ d, kept d → more d)
    (listed : added ⊆ others) : r.Settled more others place t := by
  intro base continuation found
  obtain ⟨after, later, concludes, fate⟩ := settled base continuation found
  refine ⟨after, later, concludes, ?_⟩
  rcases fate with empty | warned | held | dropped
  · exact .inl empty
  · exact .inr (.inl (listed warned))
  · exact .inr (.inr (.inl fun d member => imp d (held d member)))
  · exact .inr (.inr (.inr dropped))

theorem settled_within_undivided (undivided : Undivided s)
    (visited : (place, t) ∈ visits context s) (kept : Condition → Prop) :
    r.Settled kept added place t := by
  intro base continuation found
  exact absurd (mem_of_mem_visits visited (exception_parts found).1) undivided.exception

section Exceptions

variable {base continuation : Operand} {before after : List Condition}
  {earlier later : List Diagnostic}

theorem taken_or_dropped (found : cut s = .exception base continuation)
    (first : r.Concludes (context.enter base) base.text (.ok before) earlier)
    (second : r.Concludes (context.enter continuation) continuation.text (.ok after) later) :
    after = [] ∨
      detachedException context s base continuation ∈
        exceptionFindings context s base continuation before after ∨
      takers before ≠ [] ∨ r.Drops context s := by
  by_cases empty : after = []
  · exact .inl empty
  · by_cases detached : before = []
    · rw [exceptionFindings, if_pos ⟨detached, empty⟩]
      exact .inr (.inl List.mem_cons_self)
    · by_cases branchless : takers before = []
      · exact .inr (.inr (.inr ⟨base, continuation, before, after, earlier, later, found, first,
          second, detached, empty, branchless⟩))
      · exact .inr (.inr (.inl branchless))

theorem settled_exception (found : cut s = .exception base continuation)
    (first : r.Concludes (context.enter base) base.text (.ok before) earlier)
    (second : r.Concludes (context.enter continuation) continuation.text (.ok after) later) :
    r.Settled (Holds (continueWith after before))
      (exceptionFindings context s base continuation before after) context s := by
  intro otherBase otherContinuation same
  rw [found] at same
  cases same
  refine ⟨after, later, second, ?_⟩
  rcases taken_or_dropped found first second with empty | warned | taken | dropped
  · exact .inl empty
  · exact .inr (.inl warned)
  · exact .inr (.inr (.inl fun d member => holds_continueWith taken member))
  · exact .inr (.inr (.inr dropped))

end Exceptions

theorem Concludes.settled (concludes : r.Concludes context s outcome added)
    (visited : (place, t) ∈ visits context s) :
    ∀ conditions, outcome = .ok conditions → r.Settled (Holds conditions) added place t := by
  refine concludes.induction (motive := fun context s outcome added =>
    (place, t) ∈ visits context s → ∀ conditions, outcome = .ok conditions →
      r.Settled (Holds conditions) added place t) ?_ visited
  intro context s outcome added step visited conditions ok
  obtain ⟨inked, here | ⟨o, operand, inside⟩⟩ := mem_visits_iff.mp visited
  · cases here
    cases step.success ok with
    | blank blank =>
        rw [blank] at inked
        contradiction
    | name _ found => exact fun base continuation same => by cases found.symm.trans same
    | sequence _ found => exact fun base continuation same => by cases found.symm.trans same
    | alternatives _ found => exact fun base continuation same => by cases found.symm.trans same
    | exception _ found first second =>
        apply (settled_exception found first.1 second.1).mono (fun _ held => held)
        exact List.subset_append_of_subset_right _ (List.subset_append_right _ _)
  · cases step.success ok with
    | blank blank =>
        rw [blank] at inked
        contradiction
    | name _ found =>
        rw [found] at operand
        contradiction
    | sequence _ found each =>
        rw [found] at operand
        obtain ⟨own, findings, held, inResults, inAdded⟩ := each.part rfl operand
        exact (held.2 inside own rfl).mono (fun _ kept => kept.mono inResults) inAdded
    | alternatives _ found =>
        exact settled_within_undivided (alternatives_parts found).1 visited _
    | @exception base continuation before earlier after later _ found first second =>
        rw [found] at operand
        -- What stands behind the mark has no exception in it; what stands in front keeps its own.
        rcases List.mem_pair.mp operand with rfl | rfl
        · exact (first.2 inside before rfl).mono (fun _ kept => kept.continueWith after)
            (List.subset_append_left _ _)
        · exact settled_within_undivided (exception_parts found).2.2 inside _

def nameAt (r : Reader) (place : Context) (t : Text) : List Condition :=
  match cut t with
  | .name decoration token => [r.namedCondition place decoration token]
  | _ => []

def namings (r : Reader) (context : Context) (s : Text) : List Condition :=
  (visits context s).flatMap fun (place, t) => r.nameAt place t

theorem namings_eq (r : Reader) (context : Context) (s : Text) :
    r.namings context s =
      if s.isBlank then []
      else
        r.nameAt context s ++
          (cut s).operands.flatMap fun o => r.namings (context.enter o) o.text := by
  rw [namings, visits_eq]
  split
  · rfl
  · rw [List.flatMap_cons, List.flatMap_assoc]
    rfl

def Retains (r : Reader) (context : Context) (s : Text)
    (outcome : Except Formula.Error (List Condition)) (added : List Diagnostic) : Prop :=
  ∀ conditions, outcome = .ok conditions → (∀ d, d ∈ added → d.kind ≠ .detachedException) →
    (∀ place t, (place, t) ∈ visits context s → ¬ r.Drops place t) →
    ∀ d, (r.namings context s).count d ≤ (census conditions).count d

theorem retains_gathered {operands : List Operand}
    (each : Gathered (fun o => r.Retains (context.enter o) o.text) operands outcome added)
    (ok : outcome = .ok conditions) (attached : ∀ d, d ∈ added → d.kind ≠ .detachedException)
    (undropped : ∀ o, o ∈ operands → ∀ place t,
      (place, t) ∈ visits (context.enter o) o.text → ¬ r.Drops place t) (d : Condition) :
    (operands.flatMap fun o => r.namings (context.enter o) o.text).count d ≤
      (census conditions).count d := by
  induction each generalizing conditions with
  | nil => exact Nat.zero_le _
  | failed => cases ok
  | @cons o results earlier rest outcome later first behind ih =>
      cases outcome with
      | error e => cases ok
      | ok others =>
          cases ok
          obtain ⟨attachedFirst, attachedLater⟩ := List.forall_mem_append.mp attached
          have here := first results rfl attachedFirst (undropped o List.mem_cons_self) d
          have there := ih rfl attachedLater fun p member =>
            undropped p (List.mem_cons_of_mem _ member)
          rw [List.flatMap_cons, List.count_append, census_append, List.count_append]
          exact Nat.add_le_add here there

theorem Concludes.retains (concludes : r.Concludes context s outcome added) :
    r.Retains context s outcome added := by
  refine concludes.induction (motive := r.Retains) ?_
  intro context s outcome added step conditions ok attached undropped d
  have inner : ∀ o, o ∈ (cut s).operands → s.isBlank = false → ∀ place t,
      (place, t) ∈ visits (context.enter o) o.text → ¬ r.Drops place t := by
    intro o operand inked place t inside
    exact undropped place t (mem_visits_iff.mpr ⟨inked, .inr ⟨o, operand, inside⟩⟩)
  have gathered : ∀ {operands : List Operand} {results : List Condition},
      Gathered (fun o outcome added => r.Concludes (context.enter o) o.text outcome added ∧
        r.Retains (context.enter o) o.text outcome added) operands (.ok results) added →
      (cut s).operands = operands → s.isBlank = false →
        (operands.flatMap fun o => r.namings (context.enter o) o.text).count d ≤
          (census results).count d := by
    intro operands results each same inked
    apply retains_gathered (each.mono fun _ _ _ _ held => held.2) rfl attached
    intro o operand
    exact inner o (same ▸ operand) inked
  rw [namings_eq]
  cases step.success ok with
  | blank blank =>
      rw [if_pos blank]
      exact Nat.zero_le _
  | name inked found =>
      rw [if_neg (Bool.not_eq_true _ ▸ inked), nameAt, found]
      exact Nat.le_refl _
  | sequence inked found each =>
      rw [if_neg (Bool.not_eq_true _ ▸ inked), nameAt, found]
      exact gathered each (congrArg Cut.operands found) inked
  | alternatives inked found each =>
      rw [if_neg (Bool.not_eq_true _ ▸ inked), nameAt, found]
      apply Nat.le_trans (gathered each (congrArg Cut.operands found) inked)
      rw [census_cons, List.count_cons, List.count_append, Nat.add_assoc]
      exact Nat.le_add_right _ _
  | @exception base continuation before earlier after later inked found first second =>
      have both : Gathered (fun o => r.Retains (context.enter o) o.text) [base, continuation]
          (.ok (before ++ after)) (earlier ++ later) := .pair first.2 second.2
      obtain ⟨attachedFirst, attachedRest⟩ := List.forall_mem_append.mp attached
      obtain ⟨attachedSecond, attachedHere⟩ := List.forall_mem_append.mp attachedRest
      rw [found] at inner
      have counted := retains_gathered both rfl
        (List.forall_mem_append.mpr ⟨attachedFirst, attachedSecond⟩)
        (fun o operand => inner o operand inked) d
      have copied : (census after).count d ≤ (takers before).length * (census after).count d := by
        rcases taken_or_dropped found first.1 second.1 with empty | warned | taken | dropped
        · rw [empty]
          exact Nat.zero_le _
        · exact absurd rfl (attachedHere _ warned)
        · exact Nat.le_mul_of_pos_left _ (List.length_pos_iff.mpr taken)
        · exact absurd dropped (undropped context s (mem_visits_iff.mpr ⟨inked, .inl rfl⟩))
      rw [if_neg (Bool.not_eq_true _ ▸ inked), nameAt, found, count_census_continueWith]
      rw [census_append, List.count_append] at counted
      exact Nat.le_trans counted (Nat.add_le_add_left copied _)

end Readings

/-- The conditions of every exception are found under other conditions, or a finding tells of it, or
a branchless choice drops them; where neither of the latter happens, every name is found again. -/
theorem exceptions_settled (r : Reader) (log : List Diagnostic) (context : Context) (s : Text)
    (conditions : List Condition) (accepted : (r.readInto log context s).1 = .ok conditions) :
    ∃ added, (r.readInto log context s).2 = log ++ added ∧
      (∀ place t, (place, t) ∈ visits context s →
        r.Settled (fun d => ∃ c, c ∈ forestPreorder conditions ∧ d ∈ c.children) added place t) ∧
      ((∀ d, d ∈ added → d.kind ≠ .detachedException) →
        (∀ place t, (place, t) ∈ visits context s → ¬ r.Drops place t) →
        ∀ d, (r.namings context s).count d ≤ (census conditions).count d) := by
  have reading : r.readInto log context s = (.ok conditions, (r.readInto log context s).2) :=
    Prod.ext accepted rfl
  obtain ⟨added, found, concludes⟩ := concludes_of_readInto reading
  refine ⟨added, found, ?_, ?_⟩
  · intro place t visited
    exact (concludes.settled visited conditions rfl).mono (fun _ held => held.exists_child)
      fun _ listed => listed
  · exact concludes.retains conditions rfl

theorem exceptions_settled_single :
    ∃ followed : Condition,
      followed.children = [{ category := .unclassified, station := 0, name := ['B'] }] ∧
        (readInto ⟨.empty, {}⟩ [] {} "A但B".toList).1 = .ok [followed] ∧
        (namings ⟨.empty, {}⟩ {} "A但B".toList).length = 2 ∧
        ∀ d, (namings ⟨.empty, {}⟩ {} "A但B".toList).count d ≤ (census [followed]).count d := by
  let followed : Condition :=
    { category := .unclassified, station := 0, name := ['A'],
      children := [{ category := .unclassified, station := 0, name := ['B'] }] }
  have accepted : (readInto ⟨.empty, {}⟩ [] {} "A但B".toList).1 = .ok [followed] :=
    Except.toOption_eq_some_iff.mp (by decide +kernel)
  have findings : (readInto ⟨.empty, {}⟩ [] {} "A但B".toList).2 =
      [unclassifiedName {} ['A'], unclassifiedName { offset := 4 } ['B']] := by decide +kernel
  have visited : visits {} "A但B".toList =
      [({}, "A但B".toList), ({}, ['A']), ({ offset := 4 }, ['B'])] := by decide +kernel
  obtain ⟨added, found, _, retained⟩ := exceptions_settled ⟨.empty, {}⟩ [] {} _ _ accepted
  rw [findings, List.nil_append] at found
  refine ⟨followed, rfl, accepted, by decide +kernel, retained ?_ ?_⟩
  · rw [← found]
    simp [unclassifiedName]
  · intro place t member dropped
    obtain ⟨base, continuation, before, _, _, _, divided, first, _, _, _, branchless⟩ := dropped
    rw [visited] at member
    simp only [List.mem_cons, List.not_mem_nil, or_false, Prod.mk.injEq] at member
    rcases member with ⟨rfl, rfl⟩ | ⟨rfl, rfl⟩ | ⟨rfl, rfl⟩
    · have parts : cut "A但B".toList = .exception ⟨0, ['A'], .beside⟩ ⟨4, ['B'], .beside⟩ := by
        decide +kernel
      have named : (readInto ⟨.empty, {}⟩ [] {} ['A']).1 =
          .ok [{ category := .unclassified, station := 0, name := ['A'] }] :=
        Except.toOption_eq_some_iff.mp (by decide +kernel)
      cases parts.symm.trans divided
      have same : Except.ok before = (readInto ⟨.empty, {}⟩ [] {} ['A']).1 :=
        (congrArg Prod.fst (first [])).symm
      cases same.trans named
      contradiction
    · have single : cut ['A'] = .name .plain ['A'] := by decide +kernel
      cases single.symm.trans divided
    · have single : cut ['B'] = .name .plain ['B'] := by decide +kernel
      cases single.symm.trans divided

/-- A choice without branches is something to attach to, so nothing tells that the name is lost. -/
theorem exception_dropped :
    ∃ conditions base continuation after,
      (readInto ⟨.empty, {}⟩ [] {} "又は但A".toList).1 = .ok conditions ∧
      cut "又は但A".toList = .exception base continuation ∧
      (readInto ⟨.empty, {}⟩ [] (Context.enter {} continuation) continuation.text).1 = .ok after ∧
      after ≠ [] ∧
      (∀ d, d ∈ (readInto ⟨.empty, {}⟩ [] {} "又は但A".toList).2 → d.kind ≠ .detachedException) ∧
      ∀ d, d ∈ after → ∀ c, c ∈ forestPreorder conditions → d ∉ c.children := by
  refine ⟨[.choice "又は".toList 0 false []], ⟨0, "又は".toList, .beside⟩, ⟨9, ['A'], .beside⟩,
    [{ category := .unclassified, station := 0, name := ['A'] }],
    Except.toOption_eq_some_iff.mp (by decide +kernel), by decide +kernel,
    Except.toOption_eq_some_iff.mp (by decide +kernel), nofun, ?_, ?_⟩
  · decide +kernel
  · decide +kernel

end Reader

end SignalBox
