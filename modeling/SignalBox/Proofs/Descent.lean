import Mathlib.Logic.Relation
import SignalBox.Proofs.Limit
import SignalBox.Proofs.Position
import SignalBox.Proofs.Step

/-! A reading goes down from a text to its operands, and every operand is smaller than the text. So
there are at most as many levels as the formula has bytes, and what a place counts stays within the
formula. -/

namespace SignalBox.Reader

open Text Formula Formula.Reading

/-- One level of a reading, where the operands are left to `recurse`. -/
def level (r : Reader) (recurse : Context → Text → Reading (List Condition)) (context : Context)
    (s : Text) : Reading (List Condition) :=
  if s.isBlank then pure []
  else if r.options.depthLimit < context.depth then throw (.tooDeep r.options.depthLimit s)
  else
    match cut s with
    | .malformed delimiter => throw (blame context s delimiter)
    | .name decoration token => do
        let condition ← r.readName context decoration token
        pure [condition]
    | .sequence operands => gather (fun o => recurse (context.enter o) o.text) operands
    | .alternatives operands => do
        let branches ← gather (fun o => recurse (context.enter o) o.text) operands
        pure [Condition.choice s context.station context.partialLock branches]
    | .exception base continuation => do
        let before ← recurse (context.enter base) base.text
        let after ← recurse (context.enter continuation) continuation.text
        if before = [] ∧ after ≠ [] then
          warn (detachedException context s base continuation)
        pure (continueWith after before)

def levels (r : Reader) (beyond : Context → Text → Reading (List Condition)) :
    Nat → Context → Text → Reading (List Condition)
  | 0 => beyond
  | n + 1 => r.level (r.levels beyond n)

/-- On the level of the first text, the second is left to be read. Neither blank texts nor texts
that are too deep come so far. -/
inductive Calls (r : Reader) : Context × Text → Context × Text → Prop
  | operand {context : Context} {s : Text} {o : Operand} (inked : s.isBlank = false)
      (shallow : context.depth ≤ r.options.depthLimit) (member : o ∈ (cut s).operands) :
      Calls r (context, s) (context.enter o, o.text)

variable {r : Reader} {context place : Context} {s t : Text}

theorem level_read (r : Reader) (context : Context) (s : Text) :
    r.level r.read context s = r.read context s :=
  (r.read_eq context s).symm

theorem level_congr {f g : Context → Text → Reading (List Condition)}
    (same : ∀ place t, r.Calls (context, s) (place, t) → f place t = g place t) :
    r.level f context s = r.level g context s := by
  rw [level, level]
  split
  · rfl
  · next inked =>
      split
      · rfl
      · next shallow =>
          have operand : ∀ o, o ∈ (cut s).operands →
              f (context.enter o) o.text = g (context.enter o) o.text := by
            intro o member
            exact same _ _ (.operand (Bool.not_eq_true _ ▸ inked) (Nat.not_lt.mp shallow) member)
          cases found : cut s with
          | malformed delimiter => rfl
          | name decoration token => rfl
          | sequence operands =>
              rw [found, Cut.operands] at operand
              exact gather_congr operand
          | alternatives operands =>
              rw [found, Cut.operands] at operand
              dsimp only
              rw [gather_congr operand]
          | exception base continuation =>
              dsimp only
              rw [operand base (by simp [found, Cut.operands]),
                operand continuation (by simp [found, Cut.operands])]

theorem Calls.byteLength_lt (calls : r.Calls (context, s) (place, t)) :
    byteLength t < byteLength s := by
  cases calls with
  | operand _ _ member => exact byteLength_lt_of_mem_cut member

theorem levels_eq_read {n : Nat} (beyond : Context → Text → Reading (List Condition))
    (context : Context) (s : Text) (room : byteLength s < n) :
    r.levels beyond n context s = r.read context s := by
  induction n generalizing context s with
  | zero => contradiction
  | succ n ih =>
      rw [levels, ← level_read]
      apply level_congr
      intro place t calls
      apply ih
      have := calls.byteLength_lt
      omega

theorem Calls.counted (calls : r.Calls (context, s) (place, t)) :
    place.depth + byteLength t ≤ context.depth + byteLength s ∧
      place.offset + byteLength t ≤ context.offset + byteLength s := by
  cases calls with
  | @operand _ _ o _ _ member =>
      have smaller := byteLength_lt_of_mem_cut member
      have below := context.depth_enter_le o
      have stops : o.offset + byteLength o.text ≤ 0 + byteLength s :=
        ((laidOut_cut s).within o member).stop_le
      rw [Context.offset_enter]
      omega

theorem counted_of_reflTransGen (reached : Relation.ReflTransGen r.Calls (context, s) (place, t)) :
    place.depth + byteLength t ≤ context.depth + byteLength s ∧
      place.offset + byteLength t ≤ context.offset + byteLength s := by
  generalize last : (place, t) = call at reached
  induction reached generalizing place t with
  | refl =>
      cases last
      exact ⟨Nat.le_refl _, Nat.le_refl _⟩
  | @tail caller _ _ calls ih =>
      subst last
      obtain ⟨depth, offset⟩ := ih rfl
      obtain ⟨deeper, further⟩ := calls.counted
      exact ⟨Nat.le_trans deeper depth, Nat.le_trans further offset⟩

/-- Every text that a reading is left with on its way is smaller than the text it is a part of,
and those are all texts that it depends on. So it is the same however it would go on below as many
levels as the formula has bytes. The depth of a place and the byte behind its text are at most the
length of the formula, so words that hold the length hold them. -/
theorem read_descends (r : Reader) :
    (∀ context s place t, r.Calls (context, s) (place, t) → byteLength t < byteLength s) ∧
    (∀ recurse context s,
      (∀ place t, r.Calls (context, s) (place, t) → recurse place t = r.read place t) →
        r.level recurse context s = r.read context s) ∧
    (∀ beyond context s n, byteLength s < n → r.levels beyond n context s = r.read context s) ∧
    ∀ station partialLock s place t,
      Relation.ReflTransGen r.Calls ({ station, partialLock }, s) (place, t) →
        place.depth ≤ byteLength s ∧ place.offset + byteLength t ≤ byteLength s ∧
          (byteLength s < UInt64.size →
            place.depth.toUInt64.toNat = place.depth ∧
              place.offset.toUInt64.toNat = place.offset) := by
  refine ⟨fun _ _ _ _ => Calls.byteLength_lt, ?_, ?_, ?_⟩
  · intro recurse context s same
    rw [← level_read]
    exact level_congr same
  · intro beyond context s n room
    exact levels_eq_read beyond context s room
  · intro station partialLock s place t reached
    obtain ⟨depth, offset⟩ := counted_of_reflTransGen reached
    dsimp only at depth offset
    refine ⟨by omega, by omega, ?_⟩
    intro short
    exact ⟨UInt64.toNat_ofNat_of_lt' (by omega), UInt64.toNat_ofNat_of_lt' (by omega)⟩

theorem read_descends_rewrapped :
    ∃ recurse, recurse {} "(A)((B))".toList ≠ read ⟨.empty, {}⟩ {} "(A)((B))".toList ∧
      Calls ⟨.empty, {}⟩ ({}, "(A)((B))".toList) ({ depth := 1, offset := 3 }, "((B))".toList) ∧
      byteLength "((B))".toList < byteLength "(A)((B))".toList ∧
      level ⟨.empty, {}⟩ recurse {} "(A)((B))".toList = read ⟨.empty, {}⟩ {} "(A)((B))".toList ∧
      byteLength "(A)((B))".toList = 8 ∧
      levels ⟨.empty, {}⟩ (fun _ _ => pure []) 9 {} "(A)((B))".toList =
        read ⟨.empty, {}⟩ {} "(A)((B))".toList ∧
      3 + byteLength "((B))".toList ≤ byteLength "(A)((B))".toList ∧
      (1 : Nat).toUInt64.toNat = 1 := by
  obtain ⟨smaller, settled, ends, counted⟩ := read_descends ⟨.empty, {}⟩
  let recurse : Context → Text → Reading (List Condition) := fun place t =>
    if byteLength t < 8 then read ⟨.empty, {}⟩ place t else pure []
  have calls : Calls ⟨.empty, {}⟩ ({}, "(A)((B))".toList)
      ({ depth := 1, offset := 3 }, "((B))".toList) :=
    .operand (o := ⟨3, "((B))".toList, .inside⟩) (by decide) (by decide) (by decide +kernel)
  have differs : recurse {} "(A)((B))".toList ≠ read ⟨.empty, {}⟩ {} "(A)((B))".toList := by
    have nothing : ((recurse {} "(A)((B))".toList).run []).1.toOption = some [] := rfl
    have found : ((read ⟨.empty, {}⟩ {} "(A)((B))".toList).run []).1.toOption ≠ some [] := by
      decide +kernel
    intro same
    rw [same] at nothing
    exact found nothing
  have level := settled recurse {} "(A)((B))".toList fun place t calls =>
    if_pos (smaller _ _ _ _ calls)
  obtain ⟨_, offset, words⟩ := counted 0 false "(A)((B))".toList _ _ (.single calls)
  exact ⟨recurse, differs, calls, smaller _ _ _ _ calls, level, by decide,
    ends _ {} "(A)((B))".toList 9 (by decide), offset, (words (by decide)).1⟩

end SignalBox.Reader
