import SignalBox.Proofs.Parallel
import SignalBox.Proofs.Position

/-! What the declared devices and the timer suffix can change. They tell what a name stands for and
how much of it is recorded. The shape of the trees, the errors and the findings about exceptions
come from the text alone. -/

namespace SignalBox

open Text Formula Formula.Reading

theorem Formula.infix_of_name {s token : Text} {decoration : Decoration}
    (found : cut s = .name decoration token) : token <:+: s := by
  have shape := shape_cut s
  rw [found] at shape
  cases shape with
  | name word unlocked alone stripped named =>
      have text := Decoration.wrap_strip s
      rw [stripped] at text
      rw [← text]
      cases decoration with
      | plain => exact List.infix_rfl
      | reverse => exact List.infix_append _ _ _
      | summary => exact List.infix_append _ _ _

namespace Reader

open Condition

/-- The condition is what the reader makes of the token. The whole token is recorded, save for the
suffix of a timer. -/
structure Identified (r : Reader) (token : Text) (c : Condition) : Prop where
  identify : r.identify token = (c.category, c.name)
  recorded : c.name = token ∨ c.category = .timer ∧ c.name ++ r.options.timerSuffix = token

structure Namesakes (r q : Reader) (s : Text) (c d : Condition) : Prop where
  station : c.station = d.station
  reverse : c.reverse = d.reverse
  summary : c.summary = d.summary
  partialLock : c.partialLock = d.partialLock
  isChoice : c.isChoice = d.isChoice
  choice : c.isChoice = true → c.name = d.name
  token : c.isChoice = false →
    ∃ token, token <:+: s ∧ r.Identified token c ∧ q.Identified token d

variable {r q : Reader} {s token : Text} {context : Context} {decoration : Decoration}

theorem recorded_identify (r : Reader) (token : Text) :
    (r.identify token).2 = token ∨
      (r.identify token).1 = .timer ∧
        (r.identify token).2 ++ r.options.timerSuffix = token := by
  rw [identify]
  split
  · exact .inl rfl
  · split
    · exact .inl rfl
    · split
      · exact .inl rfl
      · split
        · next seconds found => exact .inr ⟨rfl, (dropEnd?_eq_some_iff.mp found).symm⟩
        · exact .inl rfl

theorem identified_namedCondition (r : Reader) (context : Context) (decoration : Decoration)
    (token : Text) : r.Identified token (r.namedCondition context decoration token) :=
  ⟨rfl, r.recorded_identify token⟩

theorem filter_nameFindings (r : Reader) (context : Context) (token : Text) :
    (r.nameFindings context token).filter (fun d => d.kind ≠ .unclassifiedName) = [] := by
  rw [nameFindings]
  split <;> rfl

theorem lockstep_namesakes (limit : r.options.depthLimit = q.options.depthLimit) (s : Text) :
    Lockstep r q (fun context place t => context = place ∧ t <:+: s) (Namesakes r q s)
      (fun d => d.kind ≠ .unclassifiedName) where
  limit := limit
  depth placed := congrArg Context.depth placed.1
  offset placed := congrArg Context.offset placed.1
  operand placed member := by
    obtain ⟨rfl, within⟩ := placed
    exact ⟨rfl, (infix_of_operand member).trans within⟩
  named {context place t decoration token} placed found := by
    obtain ⟨rfl, within⟩ := placed
    have single := r.isChoice_namedCondition context decoration token
    refine ⟨rfl, rfl, rfl, rfl, single.trans (q.isChoice_namedCondition ..).symm, ?_, ?_⟩
    · intro choice
      rw [single] at choice
      contradiction
    · intro _
      exact ⟨token, (infix_of_name found).trans within, r.identified_namedCondition ..,
        q.identified_namedCondition ..⟩
  findings _ := by rw [filter_nameFindings, filter_nameFindings]
  choice placed _ := by
    obtain ⟨rfl, _⟩ := placed
    exact ⟨rfl, rfl, rfl, rfl, rfl, fun _ => rfl, nofun⟩
  isChoice := Namesakes.isChoice
  children agree := by
    obtain ⟨station, reverse, summary, partialLock, isChoice, choice, token⟩ := agree
    refine ⟨station, reverse, summary, partialLock, isChoice, choice, ?_⟩
    intro single
    obtain ⟨token, within, first, second⟩ := token single
    exact ⟨token, within, ⟨first.identify, first.recorded⟩, ⟨second.identify, second.recorded⟩⟩

/-- Two readers with one depth limit fail together, with one error, or come to trees of one shape.
What they find differs in unclassified names only. -/
theorem readInto_namesakes (r q : Reader) (limit : r.options.depthLimit = q.options.depthLimit)
    (log : List Diagnostic) (station : UInt32) (partialLock : Bool) (s : Text) :
    Paired (List.Forall₂ (Alike (Namesakes r q s)))
        (r.readInto log { station, partialLock } s).1
        (q.readInto log { station, partialLock } s).1 ∧
      (r.readInto log { station, partialLock } s).2.filter (fun d => d.kind ≠ .unclassifiedName) =
        (q.readInto log { station, partialLock } s).2.filter fun d =>
          d.kind ≠ .unclassifiedName :=
  ((lockstep_namesakes limit s).parallel ⟨rfl, List.infix_rfl⟩).run log

theorem readInto_namesakes_timer :
    ∃ devices, DeviceTable.ofSpelled [("A".toList, "signal".toList)] = .ok devices ∧
      (readInto ⟨devices, {}⟩ [] {} "A但30秒".toList).2 = [] ∧
      (readInto ⟨.empty, { timerSuffix := ['s'] }⟩ [] {} "A但30秒".toList).2.length = 2 ∧
      Paired (List.Forall₂ (Alike (Namesakes ⟨devices, {}⟩
          ⟨.empty, { timerSuffix := ['s'] }⟩ "A但30秒".toList)))
        (.ok [Condition.followedBy { category := .signal, station := 0, name := ['A'] }
          [{ category := .timer, station := 0, name := "30".toList }]])
        (.ok [Condition.followedBy { category := .unclassified, station := 0, name := ['A'] }
          [{ category := .unclassified, station := 0, name := "30秒".toList }]]) := by
  let device : Device := ⟨['A'], .signal, by decide, by decide⟩
  let r : Reader := ⟨DeviceTable.empty.insert device, {}⟩
  let q : Reader := ⟨.empty, { timerSuffix := ['s'] }⟩
  have declared : DeviceTable.ofSpelled [("A".toList, "signal".toList)] =
      .ok (DeviceTable.empty.insert device) := rfl
  have first : (r.readInto [] {} "A但30秒".toList).1 =
      .ok [Condition.followedBy { category := .signal, station := 0, name := ['A'] }
        [{ category := .timer, station := 0, name := "30".toList }]] :=
    Except.toOption_eq_some_iff.mp (by decide +kernel)
  have second : (q.readInto [] {} "A但30秒".toList).1 =
      .ok [Condition.followedBy { category := .unclassified, station := 0, name := ['A'] }
        [{ category := .unclassified, station := 0, name := "30秒".toList }]] :=
    Except.toOption_eq_some_iff.mp (by decide +kernel)
  have paired := (readInto_namesakes r q rfl [] 0 false "A但30秒".toList).1
  rw [first, second] at paired
  exact ⟨_, declared, by decide +kernel, by decide +kernel, paired⟩

end Reader

end SignalBox
