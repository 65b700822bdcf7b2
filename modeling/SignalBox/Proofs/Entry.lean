import SignalBox.Proofs.Formula.Operand
import SignalBox.Proofs.Parallel

/-! The scope in which a formula is entered. It marks the conditions that come of the formula, with
a station and with a lock, and decides nothing else. -/

namespace SignalBox

open Text Formula Formula.Reading

namespace Formula

variable {s : Text} {o : Operand}

theorem place_ofEnclosure {outer inner : Place} {x : Enclosure}
    (member : o ∈ Operand.ofEnclosure outer inner x) : o.place = outer ∨ o.place = inner := by
  simp only [Operand.ofEnclosure, List.mem_cons, List.not_mem_nil, or_false] at member
  rcases member with rfl | rfl | rfl
  · exact .inl rfl
  · exact .inr rfl
  · exact .inl rfl

theorem place_ofPieces {separator : Text} {place : Place}
    (member : o ∈ (pieces separator s).map (Operand.ofPiece place)) : o.place = place := by
  obtain ⟨p, _, rfl⟩ := List.mem_map.mp member
  rfl

theorem word_of_lock (member : o ∈ (cut s).operands)
    (lock : o.place = .locked ∨ o.place = .unlocked) : Word s := by
  have shape := shape_cut s
  generalize cut s = c at shape member
  cases shape with
  | group => rcases place_ofEnclosure member with place | place <;> simp [place] at lock
  | station => rcases place_ofEnclosure member with place | place <;> simp [place] at lock
  | exception =>
      simp only [Cut.exceptionAt, Cut.operands, List.mem_cons, List.not_mem_nil, or_false] at member
      rcases member with rfl | rfl <;> simp at lock
  | alternatives => simp [place_ofPieces member] at lock
  | words => simp [place_ofPieces member] at lock
  | lock word => exact word
  | decorated word => exact word
  | _ => contradiction

end Formula

namespace Reader

open Condition

/-- The scope of the one place is that of the other within the scope of an entry. A lock that was
set or reset on the way hides that of the entry, but only where nothing is a choice any more. -/
structure Within (entry context place : Context) (s : Text) : Prop where
  depth : context.depth = place.depth
  offset : context.offset = place.offset
  station : context.station = max entry.station place.station
  partialLock : context.partialLock = entry.partialLock ∧ place.partialLock = false ∨
    context.partialLock = place.partialLock ∧ Word s

/-- A condition of an entry, and the same condition of a formula at the own station without a
lock. -/
structure Relabels (entry : Context) (c d : Condition) : Prop where
  category : c.category = d.category
  name : c.name = d.name
  reverse : c.reverse = d.reverse
  summary : c.summary = d.summary
  station : c.station = max entry.station d.station
  locked : d.partialLock = true → c.partialLock = true
  unlocked : entry.partialLock = false → c.partialLock = d.partialLock
  choice : c.isChoice = true → c.partialLock = entry.partialLock

variable {r : Reader} {entry context place : Context} {s : Text} {o : Operand}

theorem max_max (a b c : UInt32) : max (max a b) c = max a (max b c) := by
  rw [← UInt32.toNat_inj]
  simp only [UInt32.toNat_max]
  exact Nat.max_assoc ..

theorem Within.operand (within : Within entry context place s) (member : o ∈ (cut s).operands) :
    Within entry (context.enter o) (place.enter o) o.text := by
  obtain ⟨depth, offset, station, lock⟩ := within
  have offsets : context.offset + o.offset = place.offset + o.offset := by rw [offset]
  have depths : context.depth + 1 = place.depth + 1 := by rw [depth]
  have inherited : context.partialLock = entry.partialLock ∧ place.partialLock = false ∨
      context.partialLock = place.partialLock ∧ Word o.text :=
    lock.imp_right fun own => ⟨own.1, own.2.part (infix_of_operand member)⟩
  rw [Context.enter, Context.enter]
  cases side : o.place with
  | beside => exact ⟨depth, offsets, station, inherited⟩
  | inside => exact ⟨depths, offsets, station, inherited⟩
  | inStation n =>
      have deeper : max context.station n = max entry.station (max place.station n) := by
        rw [station, max_max]
      exact ⟨depths, offsets, deeper, inherited⟩
  | locked =>
      have word := (word_of_lock member (.inl side)).part (infix_of_operand member)
      exact ⟨depths, offsets, station, .inr ⟨rfl, word⟩⟩
  | unlocked =>
      have word := (word_of_lock member (.inr side)).part (infix_of_operand member)
      exact ⟨depth, offsets, station, .inr ⟨rfl, word⟩⟩

theorem nameFindings_eq_of_offset (same : context.offset = place.offset) (token : Text) :
    r.nameFindings context token = r.nameFindings place token := by
  simp only [nameFindings, unclassifiedName, same]

theorem lockstep_entry (r : Reader) (entry : Context) :
    Lockstep r r (Within entry) (Relabels entry) fun _ => true where
  limit := rfl
  depth := Within.depth
  offset := Within.offset
  operand := Within.operand
  named {context place t decoration token} within found := by
    refine ⟨rfl, rfl, rfl, rfl, within.station, ?_, ?_, ?_⟩
    · intro locked
      change place.partialLock = true at locked
      change context.partialLock = true
      rcases within.partialLock with ⟨_, free⟩ | ⟨same, _⟩
      · rw [locked] at free
        contradiction
      · exact same.trans locked
    · intro free
      rcases within.partialLock with ⟨own, unlocked⟩ | ⟨same, _⟩
      · exact own.trans (free.trans unlocked.symm)
      · exact same
    · intro choice
      rw [r.isChoice_namedCondition] at choice
      contradiction
  findings within := by rw [nameFindings_eq_of_offset within.offset]
  choice {context place t operands branches others} within found := by
    -- A text with alternatives is no word, so the lock is still that of the entry.
    obtain ⟨own, free⟩ := within.partialLock.resolve_right fun inner =>
      inner.2.single (alternatives_parts found).2.1
    refine ⟨rfl, rfl, rfl, rfl, within.station, ?_, ?_, fun _ => own⟩
    · intro locked
      change place.partialLock = true at locked
      rw [locked] at free
      contradiction
    · intro unlocked
      exact own.trans (unlocked.trans free.symm)
  isChoice relabels := by rw [isChoice, isChoice, relabels.category]
  children relabels := by
    obtain ⟨category, name, reverse, summary, station, locked, unlocked, choice⟩ := relabels
    exact ⟨category, name, reverse, summary, station, locked, unlocked, choice⟩

theorem max_zero (a : UInt32) : max a 0 = a := by
  rw [← UInt32.toNat_inj, UInt32.toNat_max]
  exact Nat.max_zero _

/-- An entry at a station and under a lock fails with the same error, finds the same and comes to
the same trees but for their labels: every station is at least that of the entry, what is locked
stays locked, and a choice has the lock of the entry. -/
theorem readInto_relabels (r : Reader) (log : List Diagnostic) (station : UInt32)
    (partialLock : Bool) (s : Text) :
    Paired (List.Forall₂ (Alike (Relabels { station, partialLock })))
        (r.readInto log { station, partialLock } s).1 (r.readInto log {} s).1 ∧
      (r.readInto log { station, partialLock } s).2 = (r.readInto log {} s).2 := by
  have within : Within { station, partialLock } { station, partialLock } {} s :=
    ⟨rfl, rfl, (max_zero station).symm, .inl ⟨rfl, rfl⟩⟩
  obtain ⟨paired, findings⟩ := ((r.lockstep_entry { station, partialLock }).parallel within).run log
  rw [List.filter_true, List.filter_true] at findings
  exact ⟨paired, findings⟩

theorem readInto_relabels_station :
    ∃ entered own,
      (readInto ⟨.empty, {}⟩ [] { station := 2, partialLock := true } "[A又はB]C<D>".toList).1 =
        .ok entered ∧
      (readInto ⟨.empty, {}⟩ [] {} "[A又はB]C<D>".toList).1 = .ok own ∧
      entered = [.choice "A又はB".toList 2 true [.ofLetter 'A' 2 true [], .ofLetter 'B' 2 true []],
        .ofLetter 'C' 2 false [], .ofLetter 'D' 2 true []] ∧
      own = [.choice "A又はB".toList 1 false [.ofLetter 'A' 1 false [], .ofLetter 'B' 1 false []],
        .ofLetter 'C' 0 false [], .ofLetter 'D' 0 true []] ∧
      List.Forall₂ (Alike (Relabels { station := 2, partialLock := true })) entered own ∧
      (readInto ⟨.empty, {}⟩ [] { station := 2, partialLock := true } "[A又はB]C<D>".toList).2 =
        (readInto ⟨.empty, {}⟩ [] {} "[A又はB]C<D>".toList).2 := by
  obtain ⟨paired, findings⟩ := readInto_relabels ⟨.empty, {}⟩ [] 2 true "[A又はB]C<D>".toList
  have entered : (readInto ⟨.empty, {}⟩ [] { station := 2, partialLock := true }
      "[A又はB]C<D>".toList).1 = .ok [.choice "A又はB".toList 2 true
        [.ofLetter 'A' 2 true [], .ofLetter 'B' 2 true []], .ofLetter 'C' 2 false [],
        .ofLetter 'D' 2 true []] := Except.toOption_eq_some_iff.mp (by decide +kernel)
  have own : (readInto ⟨.empty, {}⟩ [] {} "[A又はB]C<D>".toList).1 = .ok [.choice "A又はB".toList 1
      false [.ofLetter 'A' 1 false [], .ofLetter 'B' 1 false []], .ofLetter 'C' 0 false [],
      .ofLetter 'D' 0 true []] := Except.toOption_eq_some_iff.mp (by decide +kernel)
  rw [entered, own] at paired
  cases paired with
  | ok relabelled => exact ⟨_, _, entered, own, rfl, rfl, relabelled, findings⟩

end Reader

end SignalBox
