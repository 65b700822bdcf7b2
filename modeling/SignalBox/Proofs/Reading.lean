import SignalBox.Proofs.Outcome
import SignalBox.Reader

/-! How a reading ends. It ends the same way whatever its log holds before and only adds to the log,
so it can be described by its outcome and by what it added. What one step comes to is said once, in
terms of what the operands come to; every property of readings is an induction over these steps. -/

namespace SignalBox

/-- A name of one letter that neither a table nor a habit tells apart. -/
def Condition.ofLetter (name : Char) (station : UInt32) (partialLock : Bool)
    (children : List Condition) : Condition where
  category := .unclassified
  station := station
  name := [name]
  partialLock := partialLock
  children := children

namespace Formula.Reading

variable {α β γ : Type} {x : Reading α} {holds : Except Formula.Error α → List Diagnostic → Prop}

theorem run_bind (x : Reading α) (f : α → Reading β) (log : List Diagnostic) :
    (x >>= f).run log =
      match x.run log with
      | (.ok a, later) => (f a).run later
      | (.error e, later) => (.error e, later) := by
  change (ExceptT.bind x f).run log = _
  simp only [ExceptT.bind, ExceptT.mk, ExceptT.run, bind, StateT.bind]
  rcases x log with ⟨e | a, later⟩ <;> rfl

/-- The outcome is the same for every log, and so is what is added to it. -/
def RunsTo (x : Reading α) (outcome : Except Formula.Error α) (added : List Diagnostic) : Prop :=
  ∀ log, x.run log = (outcome, log ++ added)

section

variable {f : α → Reading β} {e : Formula.Error} {added more : List Diagnostic}

theorem runsTo_pure (a : α) : RunsTo (pure a) (.ok a) [] :=
  fun log => congrArg (Prod.mk _) (List.append_nil log).symm

theorem runsTo_throw (e : Formula.Error) : RunsTo (throw e : Reading α) (.error e) [] :=
  fun log => congrArg (Prod.mk _) (List.append_nil log).symm

theorem runsTo_warn (d : Diagnostic) : RunsTo (warn d) (.ok ()) [d] :=
  fun _ => rfl

theorem RunsTo.failed (runs : RunsTo x (.error e) added) : RunsTo (x >>= f) (.error e) added := by
  intro log
  rw [run_bind, runs]

theorem RunsTo.bind {a : α} {outcome : Except Formula.Error β} (runs : RunsTo x (.ok a) added)
    (next : RunsTo (f a) outcome more) : RunsTo (x >>= f) outcome (added ++ more) := by
  intro log
  rw [run_bind, runs]
  exact (next _).trans (congrArg _ (List.append_assoc _ _ _))

end

/-- The outcome and the additions are the same for every log, and `holds` tells of them. -/
def Ends (x : Reading α) (holds : Except Formula.Error α → List Diagnostic → Prop) : Prop :=
  ∃ outcome added, (∀ log, x.run log = (outcome, log ++ added)) ∧ holds outcome added

theorem ends_pure {a : α} (h : holds (.ok a) []) : Ends (pure a) holds :=
  ⟨.ok a, [], runsTo_pure a, h⟩

theorem ends_throw {e : Formula.Error} (h : holds (.error e) []) : Ends (throw e) holds :=
  ⟨.error e, [], runsTo_throw e, h⟩

theorem ends_warn {d : Diagnostic} {holds : Except Formula.Error Unit → List Diagnostic → Prop}
    (h : holds (.ok ()) [d]) : Ends (warn d) holds :=
  ⟨.ok (), [d], runsTo_warn d, h⟩

theorem Ends.bind {f : α → Reading β} {result : Except Formula.Error β → List Diagnostic → Prop}
    (first : Ends x holds) (failed : ∀ e added, holds (.error e) added → result (.error e) added)
    (next : ∀ a added, holds (.ok a) added →
      Ends (f a) fun outcome more => result outcome (added ++ more)) :
    Ends (x >>= f) result := by
  obtain ⟨outcome, added, run, ended⟩ := first
  cases outcome with
  | error e => exact ⟨.error e, added, RunsTo.failed run, failed e added ended⟩
  | ok a =>
      obtain ⟨last, more, rerun, held⟩ := next a added ended
      exact ⟨last, added ++ more, RunsTo.bind run rerun, held⟩

/-- Of the texts that are gathered, the first that cannot be read ends the gathering. -/
inductive Gathered (holds : α → Except Formula.Error (List β) → List Diagnostic → Prop) :
    List α → Except Formula.Error (List β) → List Diagnostic → Prop
  | nil : Gathered holds [] (.ok []) []
  | failed (first : holds a (.error e) added) : Gathered holds (a :: rest) (.error e) added
  | cons (first : holds a (.ok results) added) (later : Gathered holds rest outcome more) :
      Gathered holds (a :: rest) (outcome.map (results ++ ·)) (added ++ more)

section Gathering

variable {read : α → Reading (List β)} {texts : List α} {results : List β}
  {outcome : Except Formula.Error (List β)} {added : List Diagnostic}
  {holds more : α → Except Formula.Error (List β) → List Diagnostic → Prop}

theorem ends_gather (each : ∀ a, a ∈ texts → Ends (read a) (holds a)) :
    Ends (gather read texts) (Gathered holds texts) := by
  induction texts with
  | nil => exact ends_pure .nil
  | cons a texts ih =>
      rw [gather]
      apply (each a List.mem_cons_self).bind
      · intro e added failed
        exact .failed failed
      · intro results added first
        apply (ih fun b member => each b (List.mem_cons_of_mem _ member)).bind
        · intro e more failed
          exact .cons first failed
        · intro later more gathered
          apply ends_pure
          rw [List.append_nil]
          exact .cons first gathered

theorem exists_runsTo_gather {results : List (List β)}
    (each : List.Forall₂ (fun a result => ∃ added, RunsTo (read a) (.ok result) added)
      texts results) :
    ∃ added, RunsTo (gather read texts) (.ok results.flatten) added := by
  induction each with
  | nil => exact ⟨[], runsTo_pure []⟩
  | @cons a result texts results first later ih =>
      obtain ⟨added, runs⟩ := first
      obtain ⟨more, goesOn⟩ := ih
      rw [gather]
      exact ⟨_, runs.bind (goesOn.bind (runsTo_pure _))⟩

theorem Gathered.second_failed {a b : α} {rest : List α} {e : Formula.Error}
    {later : List Diagnostic} (first : holds a (.ok results) added)
    (second : holds b (.error e) later) :
    Gathered holds (a :: b :: rest) (.error e) (added ++ later) :=
  .cons first (.failed second)

theorem Gathered.pair {a b : α} {others : List β} {later : List Diagnostic}
    (first : holds a (.ok results) added) (second : holds b (.ok others) later) :
    Gathered holds [a, b] (.ok (results ++ others)) (added ++ later) := by
  have gathered := Gathered.cons first (.cons second .nil)
  rw [List.append_nil] at gathered
  simpa only [Except.map, List.append_nil] using gathered

theorem Gathered.mono (gathered : Gathered holds texts outcome added)
    (imp : ∀ a, a ∈ texts → ∀ outcome added, holds a outcome added → more a outcome added) :
    Gathered more texts outcome added := by
  induction gathered with
  | nil => exact .nil
  | failed first => exact .failed (imp _ List.mem_cons_self _ _ first)
  | cons first later ih =>
      exact .cons (imp _ List.mem_cons_self _ _ first)
        (ih fun a member => imp a (List.mem_cons_of_mem _ member))

theorem Gathered.parts (gathered : Gathered holds texts outcome added)
    (ok : outcome = .ok results) :
    ∃ parts : List (List β × List Diagnostic),
      List.Forall₂ (fun a part => holds a (.ok part.1) part.2) texts parts ∧
        results = parts.flatMap Prod.fst ∧ added = parts.flatMap Prod.snd := by
  induction gathered generalizing results with
  | nil =>
      cases ok
      exact ⟨[], .nil, rfl, rfl⟩
  | failed first => cases ok
  | @cons a firstResults firstAdded rest outcome more first later ih =>
      cases outcome with
      | error e => cases ok
      | ok laterResults =>
          cases ok
          obtain ⟨parts, each, rfl, rfl⟩ := ih rfl
          exact ⟨(firstResults, firstAdded) :: parts, .cons first each, rfl, rfl⟩

theorem Gathered.part {a : α} (gathered : Gathered holds texts outcome added)
    (ok : outcome = .ok results) (member : a ∈ texts) :
    ∃ own findings, holds a (.ok own) findings ∧ own ⊆ results ∧ findings ⊆ added := by
  induction gathered generalizing results with
  | nil => contradiction
  | failed first => cases ok
  | @cons b firstResults firstAdded rest outcome more first later ih =>
      cases outcome with
      | error e => cases ok
      | ok laterResults =>
          cases ok
          rcases List.mem_cons.mp member with rfl | behind
          · exact ⟨firstResults, firstAdded, first, List.subset_append_left _ _,
              List.subset_append_left _ _⟩
          · obtain ⟨own, findings, held, inResults, inAdded⟩ := ih rfl behind
            exact ⟨own, findings, held, List.subset_append_of_subset_right _ inResults,
              List.subset_append_of_subset_right _ inAdded⟩

theorem Gathered.forall_results {property : β → Prop}
    (gathered : Gathered holds texts outcome added)
    (ok : outcome = .ok results)
    (each : ∀ a, a ∈ texts → ∀ own findings, holds a (.ok own) findings →
      ∀ b, b ∈ own → property b) : ∀ b, b ∈ results → property b := by
  induction gathered generalizing results with
  | nil =>
      cases ok
      exact nofun
  | failed first => cases ok
  | @cons a firstResults firstAdded rest outcome more first later ih =>
      cases outcome with
      | error e => cases ok
      | ok laterResults =>
          cases ok
          refine List.forall_mem_append.mpr ⟨each a List.mem_cons_self _ _ first, ?_⟩
          exact ih rfl fun b member => each b (List.mem_cons_of_mem _ member)

end Gathering

end Formula.Reading

namespace Reader

open Text Formula Formula.Reading

def namedCondition (r : Reader) (context : Context) (decoration : Decoration) (token : Text) :
    Condition where
  category := (r.identify token).1
  station := context.station
  name := (r.identify token).2
  reverse := decoration = .reverse
  summary := decoration = .summary
  partialLock := context.partialLock

theorem identify_ne_alternatives (r : Reader) (name : Text) :
    (r.identify name).1 ≠ .alternatives := by
  rw [identify]
  split
  · next category found =>
      obtain ⟨device, _, rfl⟩ := Option.map_eq_some_iff.mp found
      exact device.single
  · repeat' split
    all_goals exact nofun

theorem isChoice_namedCondition (r : Reader) (context : Context) (decoration : Decoration)
    (token : Text) : (r.namedCondition context decoration token).isChoice = false :=
  decide_eq_false (r.identify_ne_alternatives token)

def nameFindings (r : Reader) (context : Context) (token : Text) : List Diagnostic :=
  if (r.identify token).1 = .unclassified ∧ r.devices.declares token = false then
    [unclassifiedName context token]
  else []

def exceptionFindings (context : Context) (s : Text) (base continuation : Operand)
    (before after : List Condition) : List Diagnostic :=
  if before = [] ∧ after ≠ [] then [detachedException context s base continuation] else []

theorem ends_readName (r : Reader) (context : Context) (decoration : Decoration) (token : Text) :
    Ends (r.readName context decoration token) fun outcome added =>
      outcome = .ok (r.namedCondition context decoration token) ∧
        added = r.nameFindings context token := by
  have condition : r.readName context decoration token = (do
      if (r.identify token).1 = .unclassified ∧ r.devices.declares token = false then
        warn (unclassifiedName context token)
      pure (r.namedCondition context decoration token)) := rfl
  rw [condition, nameFindings]
  split
  · have warned : Ends (warn (unclassifiedName context token)) fun outcome added =>
        outcome = .ok () ∧ added = [unclassifiedName context token] := ends_warn ⟨rfl, rfl⟩
    apply warned.bind
    · intro e added failed
      cases failed.1
    · intro _ added warning
      exact ends_pure ⟨rfl, (List.append_nil _).trans warning.2⟩
  · exact ends_pure ⟨rfl, rfl⟩

def Concludes (r : Reader) (context : Context) (s : Text)
    (outcome : Except Formula.Error (List Condition)) (added : List Diagnostic) : Prop :=
  ∀ log, r.readInto log context s = (outcome, log ++ added)

/-- What one step of a reading comes to, by what its operands come to. -/
inductive Step (r : Reader)
    (operand : Context → Text → Except Formula.Error (List Condition) → List Diagnostic → Prop)
    (context : Context) (s : Text) :
    Except Formula.Error (List Condition) → List Diagnostic → Prop
  | blank (blank : s.isBlank = true) : Step r operand context s (.ok []) []
  | deep (inked : s.isBlank = false) (deep : r.options.depthLimit < context.depth) :
      Step r operand context s (.error (.tooDeep r.options.depthLimit s)) []
  | malformed (inked : s.isBlank = false) (found : cut s = .malformed delimiter) :
      Step r operand context s (.error (blame context s delimiter)) []
  | name (inked : s.isBlank = false) (found : cut s = .name decoration token) :
      Step r operand context s (.ok [r.namedCondition context decoration token])
        (r.nameFindings context token)
  | sequence (inked : s.isBlank = false) (found : cut s = .sequence operands)
      (each : Gathered (fun o => operand (context.enter o) o.text) operands outcome added) :
      Step r operand context s outcome added
  | alternatives (inked : s.isBlank = false) (found : cut s = .alternatives operands)
      (each : Gathered (fun o => operand (context.enter o) o.text) operands outcome added) :
      Step r operand context s
        (outcome.map fun branches =>
          [Condition.choice s context.station context.partialLock branches]) added
  | base (inked : s.isBlank = false) (found : cut s = .exception base continuation)
      (failed : operand (context.enter base) base.text (.error e) added) :
      Step r operand context s (.error e) added
  | continuation (inked : s.isBlank = false) (found : cut s = .exception base continuation)
      (first : operand (context.enter base) base.text (.ok before) earlier)
      (failed : operand (context.enter continuation) continuation.text (.error e) later) :
      Step r operand context s (.error e) (earlier ++ later)
  | exception (inked : s.isBlank = false) (found : cut s = .exception base continuation)
      (first : operand (context.enter base) base.text (.ok before) earlier)
      (second : operand (context.enter continuation) continuation.text (.ok after) later) :
      Step r operand context s (.ok (continueWith after before))
        (earlier ++ (later ++ exceptionFindings context s base continuation before after))

inductive Success (r : Reader)
    (operand : Context → Text → Except Formula.Error (List Condition) → List Diagnostic → Prop)
    (context : Context) (s : Text) : List Condition → List Diagnostic → Prop
  | blank (blank : s.isBlank = true) : Success r operand context s [] []
  | name (inked : s.isBlank = false) (found : cut s = .name decoration token) :
      Success r operand context s [r.namedCondition context decoration token]
        (r.nameFindings context token)
  | sequence (inked : s.isBlank = false) (found : cut s = .sequence operands)
      (each : Gathered (fun o => operand (context.enter o) o.text) operands
        (.ok conditions) added) : Success r operand context s conditions added
  | alternatives (inked : s.isBlank = false) (found : cut s = .alternatives operands)
      (each : Gathered (fun o => operand (context.enter o) o.text) operands
        (.ok branches) added) :
      Success r operand context s
        [Condition.choice s context.station context.partialLock branches] added
  | exception (inked : s.isBlank = false) (found : cut s = .exception base continuation)
      (first : operand (context.enter base) base.text (.ok before) earlier)
      (second : operand (context.enter continuation) continuation.text (.ok after) later) :
      Success r operand context s (continueWith after before)
        (earlier ++ (later ++ exceptionFindings context s base continuation before after))

section Steps

variable {r : Reader} {context : Context} {s : Text} {conditions : List Condition}
  {outcome other : Except Formula.Error (List Condition)} {added others : List Diagnostic}
  {holds more : Context → Text → Except Formula.Error (List Condition) → List Diagnostic → Prop}

theorem Step.mono (step : r.Step holds context s outcome added)
    (imp : ∀ o, o ∈ (cut s).operands → ∀ outcome added,
      holds (context.enter o) o.text outcome added →
        more (context.enter o) o.text outcome added) :
    r.Step more context s outcome added := by
  cases step with
  | blank blank => exact .blank blank
  | deep inked deep => exact .deep inked deep
  | malformed inked found => exact .malformed inked found
  | name inked found => exact .name inked found
  | sequence inked found each =>
      rw [found] at imp
      exact .sequence inked found (each.mono imp)
  | alternatives inked found each =>
      rw [found] at imp
      exact .alternatives inked found (each.mono imp)
  | base inked found failed =>
      rw [found] at imp
      exact .base inked found (imp _ (by simp [Cut.operands]) _ _ failed)
  | continuation inked found first failed =>
      rw [found] at imp
      exact .continuation inked found (imp _ (by simp [Cut.operands]) _ _ first)
        (imp _ (by simp [Cut.operands]) _ _ failed)
  | exception inked found first second =>
      rw [found] at imp
      exact .exception inked found (imp _ (by simp [Cut.operands]) _ _ first)
        (imp _ (by simp [Cut.operands]) _ _ second)

theorem Step.success (step : r.Step holds context s outcome added)
    (ok : outcome = .ok conditions) : r.Success holds context s conditions added := by
  cases step with
  | blank blank =>
      cases ok
      exact .blank blank
  | deep => cases ok
  | malformed => cases ok
  | name inked found =>
      cases ok
      exact .name inked found
  | sequence inked found each =>
      cases ok
      exact .sequence inked found each
  | @alternatives operands outcome added inked found each =>
      cases outcome with
      | error e => cases ok
      | ok branches =>
          cases ok
          exact .alternatives inked found each
  | base => cases ok
  | continuation => cases ok
  | exception inked found first second =>
      cases ok
      exact .exception inked found first second

theorem ends_step
    (each : ∀ o, o ∈ (cut s).operands →
      Ends (r.read (context.enter o) o.text) (holds (context.enter o) o.text)) :
    Ends (r.read context s) (r.Step holds context s) := by
  rw [read_eq]
  split
  · next blank => exact ends_pure (.blank blank)
  · next inked =>
      rw [Bool.not_eq_true] at inked
      split
      · next deep => exact ends_throw (.deep inked deep)
      · cases found : cut s with
        | malformed delimiter => exact ends_throw (.malformed inked found)
        | name decoration token =>
            apply (r.ends_readName context decoration token).bind
            · intro e added failed
              cases failed.1
            · intro condition added named
              obtain ⟨same, rfl⟩ := named
              cases same
              apply ends_pure
              rw [List.append_nil]
              exact .name inked found
        | sequence operands =>
            rw [found] at each
            obtain ⟨outcome, added, run, gathered⟩ := ends_gather each
            exact ⟨outcome, added, run, .sequence inked found gathered⟩
        | alternatives operands =>
            rw [found] at each
            apply (ends_gather each).bind
            · intro e added failed
              exact .alternatives inked found failed
            · intro branches added gathered
              apply ends_pure
              rw [List.append_nil]
              exact .alternatives inked found gathered
        | exception base continuation =>
            rw [found] at each
            apply (each base (by simp [Cut.operands])).bind
            · intro e added failed
              exact .base inked found failed
            · intro before earlier first
              apply (each continuation (by simp [Cut.operands])).bind
              · intro e later failed
                exact .continuation inked found first failed
              · intro after later second
                have step := Step.exception (r := r) inked found first second
                rw [exceptionFindings] at step
                split
                · next detached =>
                    rw [if_pos detached] at step
                    exact ⟨_, _, fun _ => rfl, step⟩
                · next attached =>
                    rw [if_neg attached] at step
                    exact ends_pure step

theorem exists_concludes (r : Reader) (context : Context) (s : Text) :
    ∃ outcome added, r.Concludes context s outcome added ∧
      r.Step r.Concludes context s outcome added := by
  generalize size : byteLength s = n
  induction n using Nat.strongRecOn generalizing context s with
  | ind n ih =>
      apply ends_step
      intro o member
      obtain ⟨outcome, added, concludes, _⟩ :=
        ih _ (size ▸ byteLength_lt_of_mem_cut member) (context.enter o) o.text rfl
      exact ⟨outcome, added, concludes, concludes⟩

theorem Concludes.unique (one : r.Concludes context s outcome added)
    (two : r.Concludes context s other others) : other = outcome ∧ others = added := by
  have same := (two []).symm.trans (one [])
  rw [List.nil_append, List.nil_append] at same
  exact Prod.mk.inj same

theorem Concludes.step (concludes : r.Concludes context s outcome added) :
    r.Step r.Concludes context s outcome added := by
  obtain ⟨_, _, same, step⟩ := r.exists_concludes context s
  obtain ⟨rfl, rfl⟩ := concludes.unique same
  exact step

theorem concludes_of_readInto {log later : List Diagnostic}
    (read : r.readInto log context s = (outcome, later)) :
    ∃ added, later = log ++ added ∧ r.Concludes context s outcome added := by
  obtain ⟨same, added, concludes, _⟩ := r.exists_concludes context s
  obtain ⟨rfl, rfl⟩ := Prod.mk.inj (read.symm.trans (concludes log))
  exact ⟨added, rfl, concludes⟩

/-- What every step carries from the operands to the whole text holds of all readings. -/
theorem Concludes.induction
    {motive : Context → Text → Except Formula.Error (List Condition) → List Diagnostic → Prop}
    (concludes : r.Concludes context s outcome added)
    (step : ∀ context s outcome added,
      r.Step (fun place t outcome added =>
        r.Concludes place t outcome added ∧ motive place t outcome added)
        context s outcome added → motive context s outcome added) :
    motive context s outcome added := by
  generalize size : byteLength s = n
  induction n using Nat.strongRecOn generalizing context s outcome added with
  | ind n ih =>
      apply step
      apply concludes.step.mono
      intro o member outcome added inside
      exact ⟨inside, ih _ (size ▸ byteLength_lt_of_mem_cut member) inside rfl⟩

theorem Concludes.forall_added {holds : Diagnostic → Prop}
    (concludes : r.Concludes context s outcome added)
    (name : ∀ context token, r.devices.declares token = false →
      holds (unclassifiedName context token))
    (exception : ∀ context s base continuation,
      holds (detachedException context s base continuation)) :
    ∀ d, d ∈ added → holds d := by
  refine concludes.induction (motive := fun _ _ _ added => ∀ d, d ∈ added → holds d) ?_
  intro context s outcome added step
  have gathered : ∀ {operands : List Operand} {outcome added},
      Gathered (fun o outcome added => r.Concludes (context.enter o) o.text outcome added ∧
        ∀ d, d ∈ added → holds d) operands outcome added → ∀ d, d ∈ added → holds d := by
    intro operands outcome added each
    induction each with
    | nil => exact nofun
    | failed first => exact first.2
    | cons first later ih => exact List.forall_mem_append.mpr ⟨first.2, ih⟩
  cases step with
  | blank => exact nofun
  | deep => exact nofun
  | malformed => exact nofun
  | name =>
      rw [nameFindings]
      split
      · next unknown => exact List.forall_mem_singleton.mpr (name _ _ unknown.2)
      · exact nofun
  | sequence _ _ each => exact gathered each
  | alternatives _ _ each => exact gathered each
  | base _ _ failed => exact failed.2
  | continuation _ _ first failed => exact List.forall_mem_append.mpr ⟨first.2, failed.2⟩
  | exception _ _ first second =>
      refine List.forall_mem_append.mpr ⟨first.2, List.forall_mem_append.mpr ⟨second.2, ?_⟩⟩
      rw [exceptionFindings]
      split
      · exact List.forall_mem_singleton.mpr (exception _ _ _ _)
      · exact nofun

theorem Concludes.warns (concludes : r.Concludes context s outcome added) :
    ∀ d, d ∈ added → d.isError = false ∧ d.clause? = none :=
  concludes.forall_added (fun _ _ _ => ⟨rfl, rfl⟩) fun _ _ _ _ => ⟨rfl, rfl⟩

end Steps

theorem exists_ok_of_isOk {r : Reader} {log : List Diagnostic} {context : Context} {s : Text}
    (accepted : (r.readInto log context s).1.isOk = true) :
    ∃ conditions, (r.read context s).run log = (.ok conditions, (r.readInto log context s).2) := by
  rw [readInto] at accepted ⊢
  generalize (r.read context s).run log = outcome at accepted ⊢
  obtain ⟨e | conditions, later⟩ := outcome
  · contradiction
  · exact ⟨conditions, rfl⟩

end Reader

namespace Formula.Reading

def Yields (x : Reading α) (holds : α → List Diagnostic → Prop) : Prop :=
  ∀ log a later, x.run log = (.ok a, later) → ∃ added, later = log ++ added ∧ holds a added

end Formula.Reading

namespace Reader

open Text Formula Formula.Reading

theorem read_yields (r : Reader)
    {motive : Context → Text → List Condition → List Diagnostic → Prop}
    (blank : ∀ context s, s.isBlank = true → motive context s [] [])
    (name : ∀ context s decoration token, cut s = .name decoration token →
      motive context s [r.namedCondition context decoration token]
        (r.nameFindings context token))
    (sequence : ∀ context s operands (parts : List (List Condition × List Diagnostic)),
      cut s = .sequence operands →
      List.Forall₂ (fun o part => motive (context.enter o) o.text part.1 part.2)
        operands parts →
      motive context s (parts.flatMap Prod.fst) (parts.flatMap Prod.snd))
    (alternatives : ∀ context s operands (parts : List (List Condition × List Diagnostic)),
      cut s = .alternatives operands →
      List.Forall₂ (fun o part => motive (context.enter o) o.text part.1 part.2)
        operands parts →
      motive context s
        [Condition.choice s context.station context.partialLock (parts.flatMap Prod.fst)]
        (parts.flatMap Prod.snd))
    (exception : ∀ context s base continuation before after earlier later,
      cut s = .exception base continuation →
      motive (context.enter base) base.text before earlier →
      motive (context.enter continuation) continuation.text after later →
      motive context s (continueWith after before)
        (earlier ++ (later ++ exceptionFindings context s base continuation before after)))
    (context : Context) (s : Text) :
    Yields (r.read context s) (motive context s) := by
  intro log conditions later run
  obtain ⟨added, rfl, concludes⟩ := concludes_of_readInto run
  refine ⟨added, rfl, ?_⟩
  refine concludes.induction (motive := fun context s outcome added =>
    ∀ conditions, outcome = .ok conditions → motive context s conditions added)
    ?_ conditions rfl
  intro context s outcome added step conditions ok
  cases step.success ok with
  | blank isBlank => exact blank context s isBlank
  | name _ found => exact name context s _ _ found
  | sequence _ found each =>
      obtain ⟨parts, hold, rfl, rfl⟩ := each.parts rfl
      exact sequence context s _ parts found (hold.imp fun o part h => h.2 _ rfl)
  | alternatives _ found each =>
      obtain ⟨parts, hold, rfl, rfl⟩ := each.parts rfl
      exact alternatives context s _ parts found (hold.imp fun o part h => h.2 _ rfl)
  | exception _ found first second =>
      exact exception context s _ _ _ _ _ _ found (first.2 _ rfl) (second.2 _ rfl)

end Reader

end SignalBox
