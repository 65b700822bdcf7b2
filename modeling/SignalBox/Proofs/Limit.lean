import SignalBox.Proofs.Visit

/-! The depth limit. It refuses formulas and does nothing else: what one limit lets through, every
larger limit reads in the same way. A refusal comes of a text that lies deeper than the limit, and
no text lies deeper than the formula is long. -/

namespace SignalBox

open Text Formula Formula.Reading

namespace Formula.Reading

/-- The second reading does what the first does, or goes on where the first gives up for depth. -/
def GoesOn (x y : Reading α) : Prop :=
  ∀ log, x.run log = y.run log ∨
    ∃ limit fragment later, x.run log = (.error (.tooDeep limit fragment), later)

variable {α β : Type}

theorem goesOn_refl (x : Reading α) : GoesOn x x :=
  fun _ => .inl rfl

theorem GoesOn.bind {x y : Reading α} {f g : α → Reading β} (first : GoesOn x y)
    (next : ∀ a, GoesOn (f a) (g a)) : GoesOn (x >>= f) (y >>= g) := by
  intro log
  rw [run_bind, run_bind]
  rcases first log with same | ⟨limit, fragment, later, deep⟩
  · rw [← same]
    rcases x.run log with ⟨e | a, later⟩
    · exact .inl rfl
    · exact next a later
  · rw [deep]
    exact .inr ⟨limit, fragment, later, rfl⟩

theorem goesOn_gather {read reread : α → Reading (List β)} {texts : List α}
    (each : ∀ a, a ∈ texts → GoesOn (read a) (reread a)) :
    GoesOn (gather read texts) (gather reread texts) := by
  induction texts with
  | nil => exact goesOn_refl _
  | cons a texts ih =>
      rw [gather, gather]
      apply (each a List.mem_cons_self).bind
      intro results
      apply (ih fun b member => each b (List.mem_cons_of_mem _ member)).bind
      intro later
      exact goesOn_refl _

theorem Gathered.exists_failed
    {holds : α → Except Formula.Error (List β) → List Diagnostic → Prop} {texts : List α}
    {outcome : Except Formula.Error (List β)} {added : List Diagnostic} {e : Formula.Error}
    (gathered : Gathered holds texts outcome added) (failed : outcome = .error e) :
    ∃ a findings, a ∈ texts ∧ holds a (.error e) findings := by
  induction gathered with
  | nil => cases failed
  | failed first =>
      cases failed
      exact ⟨_, _, List.mem_cons_self, first⟩
  | @cons a results added rest outcome more first later ih =>
      cases outcome with
      | ok others => cases failed
      | error fault =>
          cases failed
          obtain ⟨b, findings, member, held⟩ := ih rfl
          exact ⟨b, findings, List.mem_cons_of_mem _ member, held⟩

end Formula.Reading

namespace Reader

def limitedTo (r : Reader) (n : Nat) : Reader :=
  { r with options := { r.options with depthLimit := n } }

theorem depthLimit_limitedTo (r : Reader) (n : Nat) : (r.limitedTo n).options.depthLimit = n :=
  rfl

variable {r : Reader} {context place : Context} {s t : Text} {d e : Nat}
  {added : List Diagnostic}

theorem goesOn_read (r : Reader) (le : d ≤ e) (context : Context) (s : Text) :
    GoesOn ((r.limitedTo d).read context s) ((r.limitedTo e).read context s) := by
  generalize size : byteLength s = n
  induction n using Nat.strongRecOn generalizing context s with
  | ind n ih =>
      have operand : ∀ o, o ∈ (cut s).operands → GoesOn
          ((r.limitedTo d).read (context.enter o) o.text)
          ((r.limitedTo e).read (context.enter o) o.text) := by
        intro o member
        exact ih _ (size ▸ byteLength_lt_of_mem_cut member) (context.enter o) o.text rfl
      rw [read_eq, read_eq]
      split
      · exact goesOn_refl _
      · by_cases deep : (r.limitedTo d).options.depthLimit < context.depth
        · rw [if_pos deep]
          exact fun log => .inr ⟨d, s, log, rfl⟩
        · have shallow : ¬ (r.limitedTo e).options.depthLimit < context.depth := by
            rw [depthLimit_limitedTo] at deep ⊢
            omega
          rw [if_neg deep, if_neg shallow]
          cases found : cut s with
          | malformed delimiter => exact goesOn_refl _
          | name decoration token => exact goesOn_refl _
          | sequence operands =>
              rw [found] at operand
              exact goesOn_gather operand
          | alternatives operands =>
              rw [found] at operand
              apply (goesOn_gather operand).bind
              intro branches
              exact goesOn_refl _
          | exception base continuation =>
              rw [found] at operand
              apply (operand base (by simp [Cut.operands])).bind
              intro before
              apply (operand continuation (by simp [Cut.operands])).bind
              intro after
              exact goesOn_refl _

theorem Concludes.exists_failed {fault : Formula.Error}
    (concludes : r.Concludes context s (.error fault) added) :
    ∃ place t, (place, t) ∈ visits context s ∧
      (r.options.depthLimit < place.depth ∧ fault = .tooDeep r.options.depthLimit t ∨
        ∃ delimiter, cut t = .malformed delimiter ∧ fault = blame place t delimiter) := by
  refine concludes.induction (motive := fun context s outcome _ =>
    ∀ fault, outcome = .error fault → ∃ place t, (place, t) ∈ visits context s ∧
      (r.options.depthLimit < place.depth ∧ fault = .tooDeep r.options.depthLimit t ∨
        ∃ delimiter, cut t = .malformed delimiter ∧ fault = blame place t delimiter)) ?_ fault rfl
  intro context s outcome added step fault failed
  have inside : ∀ o, s.isBlank = false → o ∈ (cut s).operands → ∀ {holds : Context → Text → Prop},
      (∃ place t, (place, t) ∈ visits (context.enter o) o.text ∧ holds place t) →
      ∃ place t, (place, t) ∈ visits context s ∧ holds place t := by
    rintro o inked member holds ⟨place, t, visited, held⟩
    exact ⟨place, t, mem_visits_iff.mpr ⟨inked, .inr ⟨o, member, visited⟩⟩, held⟩
  cases step with
  | blank => cases failed
  | deep inked deep =>
      cases failed
      exact ⟨context, s, mem_visits_iff.mpr ⟨inked, .inl rfl⟩, .inl ⟨deep, rfl⟩⟩
  | malformed inked found =>
      cases failed
      exact ⟨context, s, mem_visits_iff.mpr ⟨inked, .inl rfl⟩, .inr ⟨_, found, rfl⟩⟩
  | name => cases failed
  | sequence inked found each =>
      obtain ⟨o, _, member, held⟩ := each.exists_failed failed
      exact inside o inked (by rw [found]; exact member) (held.2 fault rfl)
  | @alternatives operands outcome added inked found each =>
      cases outcome with
      | ok branches => cases failed
      | error other =>
          cases failed
          obtain ⟨o, _, member, held⟩ := each.exists_failed rfl
          exact inside o inked (by rw [found]; exact member) (held.2 _ rfl)
  | base inked found first =>
      cases failed
      exact inside _ inked (by simp [found, Cut.operands]) (first.2 _ rfl)
  | continuation inked found first second =>
      cases failed
      exact inside _ inked (by simp [found, Cut.operands]) (second.2 _ rfl)
  | exception => cases failed

theorem Context.depth_enter_le (context : Context) (o : Operand) :
    (context.enter o).depth ≤ context.depth + 1 := by
  rw [enter]
  cases o.place <;> simp

theorem depth_le_of_mem_visits (visited : (place, t) ∈ visits context s) :
    place.depth + byteLength t ≤ context.depth + byteLength s := by
  generalize size : byteLength s = n
  induction n using Nat.strongRecOn generalizing context s with
  | ind n ih =>
      obtain ⟨_, here | ⟨o, member, inside⟩⟩ := mem_visits_iff.mp visited
      · cases here
        omega
      · have smaller := byteLength_lt_of_mem_cut member
        have below := context.depth_enter_le o
        have := ih _ (size ▸ smaller) inside rfl
        omega

theorem eq_of_tooDeep {log : List Diagnostic} {limit : Nat} {fragment : Text}
    (deep : (r.readInto log context s).1 = .error (.tooDeep limit fragment)) :
    limit = r.options.depthLimit ∧ limit < context.depth + byteLength s := by
  obtain ⟨outcome, added, concludes, _⟩ := r.exists_concludes context s
  rw [concludes log] at deep
  cases deep
  obtain ⟨place, t, visited, ⟨below, same⟩ | ⟨_, _, same⟩⟩ := concludes.exists_failed
  · cases same
    have := depth_le_of_mem_visits visited
    exact ⟨rfl, by omega⟩
  · cases same

theorem ne_tooDeep_of_room {log : List Diagnostic} (room : context.depth + byteLength s ≤ d) :
    ∀ limit fragment, ((r.limitedTo d).readInto log context s).1 ≠
      .error (.tooDeep limit fragment) := by
  intro limit fragment deep
  obtain ⟨own, below⟩ := eq_of_tooDeep deep
  rw [depthLimit_limitedTo] at own
  omega

theorem readInto_limitedTo_of_le {log : List Diagnostic} (le : d ≤ e)
    (within : ∀ limit fragment, ((r.limitedTo d).readInto log context s).1 ≠
      .error (.tooDeep limit fragment)) :
    (r.limitedTo e).readInto log context s = (r.limitedTo d).readInto log context s := by
  rcases r.goesOn_read le context s log with same | ⟨limit, fragment, later, deep⟩
  · exact same.symm
  · exact absurd (congrArg Prod.fst deep) (within limit fragment)

/-- A larger limit changes nothing but what the smaller one refuses for depth. A refusal names the
limit, and a limit of as many as the formula has bytes refuses nothing. -/
theorem readInto_limitedTo (r : Reader) (log : List Diagnostic) (station : UInt32)
    (partialLock : Bool) (s : Text) (d e : Nat) :
    (d ≤ e →
      (∀ limit fragment, ((r.limitedTo d).readInto log { station, partialLock } s).1 ≠
        .error (.tooDeep limit fragment)) →
      (r.limitedTo e).readInto log { station, partialLock } s =
        (r.limitedTo d).readInto log { station, partialLock } s) ∧
    (∀ limit fragment, ((r.limitedTo d).readInto log { station, partialLock } s).1 =
      .error (.tooDeep limit fragment) → limit = d) ∧
    (byteLength s ≤ d →
      ∀ limit fragment, ((r.limitedTo d).readInto log { station, partialLock } s).1 ≠
        .error (.tooDeep limit fragment)) ∧
    (byteLength s ≤ d → byteLength s ≤ e →
      (r.limitedTo d).readInto log { station, partialLock } s =
        (r.limitedTo e).readInto log { station, partialLock } s) := by
  have room : ∀ {n : Nat}, byteLength s ≤ n →
      Context.depth { station, partialLock } + byteLength s ≤ n := by
    intro n long
    exact (Nat.zero_add _).symm ▸ long
  refine ⟨readInto_limitedTo_of_le, ?_, ?_, ?_⟩
  · intro limit fragment deep
    exact (eq_of_tooDeep deep).1
  · intro long
    exact ne_tooDeep_of_room (room long)
  · intro long longToo
    rcases Nat.le_total d e with le | le
    · exact (readInto_limitedTo_of_le le (ne_tooDeep_of_room (room long))).symm
    · exact readInto_limitedTo_of_le le (ne_tooDeep_of_room (room longToo))

theorem readInto_limitedTo_nested :
    ∃ limit, ((limitedTo ⟨.empty, {}⟩ 1).readInto [] {} "[A又はB]".toList).1 =
        .error (.tooDeep limit ['A']) ∧ limit = 1 ∧
      ((limitedTo ⟨.empty, {}⟩ 2).readInto [] {} "[A又はB]".toList).1.toOption.isSome ∧
      (limitedTo ⟨.empty, {}⟩ 64).readInto [] {} "[A又はB]".toList =
        (limitedTo ⟨.empty, {}⟩ 2).readInto [] {} "[A又はB]".toList ∧
      byteLength "[A又はB]".toList = 10 ∧
      (limitedTo ⟨.empty, {}⟩ 10).readInto [] {} "[A又はB]".toList =
        (limitedTo ⟨.empty, {}⟩ 11).readInto [] {} "[A又はB]".toList := by
  have refused : ((limitedTo ⟨.empty, {}⟩ 1).readInto [] {} "[A又はB]".toList).1 =
      .error (.tooDeep 1 ['A']) := Except.eq_error_of_match (by decide +kernel)
  have accepted : ((limitedTo ⟨.empty, {}⟩ 2).readInto [] {} "[A又はB]".toList).1.toOption.isSome :=
    by decide +kernel
  have law := readInto_limitedTo ⟨.empty, {}⟩ [] 0 false "[A又はB]".toList
  refine ⟨1, refused, (law 1 64).2.1 1 ['A'] refused, accepted, (law 2 64).1 (by decide) ?_,
    by decide, (law 10 11).2.2.2 (by decide) (by decide)⟩
  intro limit fragment deep
  rw [deep] at accepted
  cases accepted

end Reader

end SignalBox
