import Mathlib.Data.List.Forall2
import SignalBox.Text.Locate

namespace SignalBox.Text

variable {c : Char} {before after x y : Text}

theorem cutLast?_singleton (absent : c ∉ after) :
    cutLast? [c] (before ++ c :: after) = some ⟨before, [c], after⟩ := by
  rw [cutLast?_eq_some_iff]
  refine ⟨List.cons_ne_nil _ _, rfl, by simp [Split.text], ?_⟩
  intro left right parts
  apply Classical.byContradiction
  intro late
  simp only [Nat.not_le] at late
  have found : (left ++ [c] ++ right)[left.length]? = some c := by simp
  rw [← parts, List.getElem?_append_right (by omega)] at found
  obtain ⟨i, eq⟩ : ∃ i, left.length - before.length = i + 1 :=
    ⟨left.length - before.length - 1, by omega⟩
  rw [eq, List.getElem?_cons_succ] at found
  exact absent (List.mem_of_getElem? found)

theorem cutLast?_singleton_eq_none (absent : c ∉ x) : cutLast? [c] x = none := by
  rw [cutLast?_eq_none_iff (List.cons_ne_nil _ _)]
  rintro ⟨left, right, parts⟩
  exact absent (by rw [← parts]; simp)

theorem exists_last_of_mem (member : c ∈ x) :
    ∃ before after, x = before ++ c :: after ∧ c ∉ after := by
  obtain ⟨after, before, parts, absent⟩ :=
    List.eq_append_cons_of_mem (List.mem_reverse.mpr member)
  refine ⟨before.reverse, after.reverse, ?_, by simpa using absent⟩
  simpa using congrArg List.reverse parts

theorem cutLast?_singleton_append (absent : c ∉ y) :
    cutLast? [c] (x ++ y) =
      (cutLast? [c] x).map fun split => { split with after := split.after ++ y } := by
  by_cases member : c ∈ x
  · obtain ⟨before, after, rfl, last⟩ := exists_last_of_mem member
    rw [List.append_assoc, List.cons_append, cutLast?_singleton last, cutLast?_singleton]
    · rfl
    · simp [last, absent]
  · rw [cutLast?_singleton_eq_none member, cutLast?_singleton_eq_none (by simp [member, absent])]
    rfl

theorem contains_singleton_iff : contains [c] x = true ↔ c ∈ x := by
  rw [contains_eq_true_iff (List.cons_ne_nil _ _)]
  constructor
  · rintro ⟨left, right, rfl⟩
    simp
  · intro member
    obtain ⟨left, right, rfl⟩ := List.append_of_mem member
    exact ⟨left, right, by simp⟩

theorem tokenAt_lt_of_cutLast? {token : Text} {split : Split}
    (found : cutLast? token x = some split) : split.tokenAt < byteLength x := by
  obtain ⟨same, text⟩ := cutLast?_parts found
  have := byteLength_pos (same ▸ token_ne_nil_of_cutLast? found)
  rw [text, Split.text, byteLength_append, byteLength_append]
  exact Nat.lt_of_lt_of_le (Nat.lt_add_of_pos_right this) (Nat.le_add_right _ _)

theorem forall_not_mem_of_all {marks : List Char}
    (absent : (marks.all fun d => decide (d ∉ x)) = true) : ∀ d, d ∈ marks → d ∉ x :=
  fun d member => of_decide_eq_true (List.all_eq_true.mp absent d member)

theorem infix_of_append_cons {token : Text} (absent : c ∉ token)
    (found : token <:+: x ++ c :: y) : token <:+: x ∨ token <:+: y := by
  obtain ⟨front, back, parts⟩ := found
  rcases List.append_eq_append_iff.mp parts with ⟨more, rfl, _⟩ | ⟨more, first, second⟩
  · exact .inl ⟨front, more, rfl⟩
  · cases more with
    | nil => exact .inl ⟨front, [], by simpa using first⟩
    | cons d more =>
        cases second
        rcases List.append_eq_append_iff.mp first with ⟨rest, _, crosses⟩ | ⟨rest, _, behind⟩
        · exact absurd (by simp [crosses]) absent
        · cases rest with
          | nil =>
              rw [List.nil_append] at behind
              exact absurd (by simp [← behind]) absent
          | cons e rest =>
              cases behind
              exact .inr ⟨rest, back, rfl⟩

theorem not_infix_pair {d : Char} (absent : c ∉ x) (absentToo : d ∉ y) : ¬ [c, d] <:+: x ++ y := by
  rintro ⟨front, back, parts⟩
  rw [List.append_assoc, List.append_eq_append_iff] at parts
  rcases parts with ⟨more, rfl, inside⟩ | ⟨more, _, rfl⟩
  · cases more with
    | nil => exact absentToo (by rw [← List.nil_append y, ← inside]; simp)
    | cons e more =>
        obtain ⟨rfl, _⟩ := List.cons.inj inside
        exact absent (by simp)
  · exact absentToo (by simp)

theorem furthestRight?_eq_none_iff {mark : α → Text} {candidates : List α} :
    furthestRight? mark x candidates = none ↔
      ∀ a, a ∈ candidates → cutLast? (mark a) x = none := by
  induction candidates with
  | nil => simp [furthestRight?]
  | cons a rest ih =>
      rw [furthestRight?, List.forall_mem_cons, ← ih]
      cases cutLast? (mark a) x with
      | none => simp
      | some split =>
          cases furthestRight? mark x rest with
          | none => simp
          | some later =>
              simp only [reduceCtorEq, false_and, iff_false]
              split <;> simp

theorem furthestRight?_cons_eq_some_iff {mark : α → Text} {rest : List α} {a d : α}
    {split : Split} :
    furthestRight? mark x (d :: rest) = some (a, split) ↔
      (d = a ∧ cutLast? (mark d) x = some split ∧
        ∀ e other, furthestRight? mark x rest = some (e, other) →
          other.tokenAt ≤ split.tokenAt) ∨
      (furthestRight? mark x rest = some (a, split) ∧
        ∀ other, cutLast? (mark d) x = some other → other.tokenAt < split.tokenAt) := by
  rw [furthestRight?]
  cases cutLast? (mark d) x with
  | none => simp
  | some first =>
      cases furthestRight? mark x rest with
      | none => simp
      | some best =>
          dsimp only
          split
          · next further =>
              constructor
              · intro chosen
                refine .inr ⟨chosen, ?_⟩
                cases chosen
                intro other same
                cases same
                exact further
              · rintro (⟨_, same, nearer⟩ | ⟨later, _⟩)
                · cases same
                  exact absurd (nearer _ _ rfl) (Nat.not_le_of_lt further)
                · exact later
          · next nearer =>
              constructor
              · intro chosen
                cases chosen
                refine .inl ⟨rfl, rfl, ?_⟩
                intro e other same
                cases same
                exact Nat.le_of_not_lt nearer
              · rintro (⟨rfl, same, _⟩ | ⟨later, further⟩)
                · cases same
                  rfl
                · cases later
                  exact absurd (further _ rfl) nearer

theorem tokenAt_le_of_furthestRight? {mark : α → Text} {candidates : List α} {a b : α}
    {split other : Split} (chosen : furthestRight? mark x candidates = some (a, split))
    (member : b ∈ candidates) (found : cutLast? (mark b) x = some other) :
    other.tokenAt ≤ split.tokenAt := by
  induction candidates generalizing a split with
  | nil => contradiction
  | cons d rest ih =>
      rcases furthestRight?_cons_eq_some_iff.mp chosen with ⟨_, here, others⟩ | ⟨later, first⟩
      · rcases List.mem_cons.mp member with rfl | inRest
        · rw [here] at found
          cases found
          exact Nat.le_refl _
        · cases later : furthestRight? mark x rest with
          | none =>
              rw [furthestRight?_eq_none_iff.mp later b inRest] at found
              contradiction
          | some best => exact Nat.le_trans (ih later inRest) (others _ _ later)
      · rcases List.mem_cons.mp member with rfl | inRest
        · exact Nat.le_of_lt (first other found)
        · exact ih later inRest

theorem map_text_placed (gap offset : Nat) (texts : List Text) :
    (Piece.placed gap offset texts).map Piece.text = texts := by
  induction texts generalizing offset with
  | nil => rfl
  | cons s texts ih => exact congrArg (s :: ·) (ih _)

theorem holds_of_splitOn {β : Type} {separator s : Text} {parts : List (List β)}
    (holds : Text → List β → Prop) (nonempty : separator ≠ [])
    (join : ∀ x y xs ys, holds x xs → holds y ys → holds (x ++ separator ++ y) (xs ++ ys))
    (each : List.Forall₂ holds (splitOn separator s) parts) : holds s parts.flatten := by
  fun_induction splitOn separator s generalizing parts with
  | case1 => contradiction
  | case2 s _ none =>
      cases each with
      | cons whole rest =>
          cases rest
          simpa using whole
  | case3 s _ split found _ ih =>
      obtain ⟨_, token, text⟩ := cutFirst?_parts found
      cases each with
      | cons first rest =>
          rw [text, Split.text, token, List.flatten_cons]
          exact join _ _ _ _ first (ih rest)

end SignalBox.Text
