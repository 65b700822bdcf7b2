import SignalBox.Formula.Cut

/-! Every operand takes fewer bytes than the text that it is cut from, also where it keeps its
parentheses. So taking a formula apart comes to an end. -/

namespace SignalBox

open Text

theorem Text.byteLength_le_of_mem_splitOn {separator s t : Text} (nonempty : separator ≠ [])
    (h : t ∈ splitOn separator s) : byteLength t ≤ byteLength s := by
  fun_induction splitOn separator s with
  | case1 => contradiction
  | case2 => exact Nat.le_of_eq (congrArg byteLength (List.mem_singleton.mp h))
  | case3 s _ x hx _ ih =>
      obtain ⟨_, _, hs⟩ := cutFirst?_parts hx
      rw [hs, Split.text, byteLength_append, byteLength_append]
      rcases List.mem_cons.mp h with rfl | h
      · omega
      · have := ih h
        omega

theorem Text.byteLength_lt_of_mem_splitOn {separator s t : Text}
    (found : contains separator s = true) (h : t ∈ splitOn separator s) :
    byteLength t < byteLength s := by
  obtain ⟨x, hx⟩ := Option.isSome_iff_exists.mp found
  obtain ⟨nonempty, token, hs⟩ := cutFirst?_parts hx
  have positive := byteLength_pos nonempty
  rw [splitOn, if_neg nonempty] at h
  rw [hs, Split.text, token, byteLength_append, byteLength_append]
  split at h
  · next none => rw [hx] at none; contradiction
  · next y hy =>
      rw [hx] at hy
      cases hy
      rcases List.mem_cons.mp h with rfl | h
      · omega
      · have := byteLength_le_of_mem_splitOn nonempty h
        omega

theorem Text.Piece.text_mem_of_mem_placed {gap offset : Nat} {texts : List Text} {p : Piece}
    (h : p ∈ Piece.placed gap offset texts) : p.text ∈ texts := by
  induction texts generalizing offset with
  | nil => simp [Piece.placed] at h
  | cons t texts ih =>
      rcases List.mem_cons.mp h with rfl | h
      · exact List.mem_cons_self
      · exact List.mem_cons_of_mem _ (ih h)

namespace Formula

theorem byteLength_ofPiece {separator s : Text} {place : Place} {o : Operand}
    (found : contains separator s = true)
    (h : o ∈ (pieces separator s).map (Operand.ofPiece place)) :
    byteLength o.text < byteLength s := by
  obtain ⟨p, hp, rfl⟩ := List.mem_map.mp h
  exact byteLength_lt_of_mem_splitOn found (Piece.text_mem_of_mem_placed hp)

theorem byteLength_ofEnclosure {outer inner : Place} {x : Enclosure} {o : Operand}
    (closed : x.closing ≠ []) (h : o ∈ Operand.ofEnclosure outer inner x) :
    byteLength o.text < byteLength x.text := by
  have positive := byteLength_pos closed
  simp only [Operand.ofEnclosure, List.mem_cons, List.not_mem_nil, or_false] at h
  simp only [Enclosure.text, byteLength_append]
  rcases h with rfl | rfl | rfl <;> simp only <;> omega

theorem byteLength_group {s : Text} {o : Operand} (h : o ∈ (Cut.group s).operands) :
    byteLength o.text < byteLength s := by
  rw [Cut.group] at h
  split at h
  · simp [Cut.operands] at h
  · next x hx =>
      obtain ⟨_, closing, hs, _, closed⟩ := enclosedByLast?_parts hx
      exact hs ▸ byteLength_ofEnclosure (closing ▸ closed) h

theorem byteLength_partialLock {s : Text} {o : Operand} (h : o ∈ (Cut.partialLock s).operands) :
    byteLength o.text < byteLength s := by
  rw [Cut.partialLock] at h
  split at h
  · simp [Cut.operands] at h
  · next x hx =>
      obtain ⟨_, closing, hs, _, closed⟩ := enclosedByLast?_parts hx
      exact hs ▸ byteLength_ofEnclosure (closing ▸ closed) h

theorem closing_ne_nil_of_enclosedByRun? {opening closing s : Text} {n : Nat} {x : Enclosure}
    (h : enclosedByRun? opening closing n s = some x) : x.closing ≠ [] := by
  obtain ⟨_, same, last, _⟩ := enclosedByRun?_eq_some_iff.mp h
  exact same ▸ token_ne_nil_of_cutLast? last

theorem byteLength_stationScope {s : Text} {o : Operand}
    (h : o ∈ (Cut.stationScope s).operands) : byteLength o.text < byteLength s := by
  rw [Cut.stationScope] at h
  split at h
  · simp [Cut.operands] at h
  · next x hx =>
      exact (enclosedByRun?_parts hx).2.2 ▸
        byteLength_ofEnclosure (closing_ne_nil_of_enclosedByRun? hx) h

theorem byteLength_exceptionAt {x : Split} {o : Operand} (marked : x.token ≠ [])
    (h : o ∈ (Cut.exceptionAt x).operands) : byteLength o.text < byteLength x.text := by
  have positive := byteLength_pos marked
  simp only [Cut.exceptionAt, Cut.operands, List.mem_cons, List.not_mem_nil, or_false] at h
  simp only [Split.text, byteLength_append]
  rcases h with rfl | rfl <;> simp only <;> omega

/-- The last run of openings is the one that the decorated name starts with, so the whole text
cannot be one decorated name: a closing stands before that run. -/
theorem before_or_after_of_adjacent {s : Text} {x : Enclosure} (found : adjacentMark <:+: s)
    (h : enclosedByRun? ['('] [')'] (runAtLast ['('] s) s = some x) :
    x.before ≠ [] ∨ x.after ≠ [] := by
  obtain ⟨pre, post, around⟩ := found
  obtain ⟨before, after, split, last, maximal, positive⟩ :=
    runAtLast_singleton (c := '(') (s := s) (by rw [← around]; simp [adjacentMark])
  generalize runAtLast ['('] s = n at split positive h
  have started : before ≠ [] := by
    rintro rfl
    rw [← around, List.nil_append, List.append_assoc, List.append_eq_append_iff] at split
    rcases split with ⟨t, opens, rest⟩ | ⟨t, _, rest⟩
    · cases t with
      | nil => exact last (by rw [← List.nil_append after, ← rest]; simp [adjacentMark])
      | cons d t =>
          have opening : d = '(' :=
            List.eq_of_mem_replicate (n := n) (by rw [opens]; simp)
          rw [opening] at rest
          simp [adjacentMark] at rest
    · exact last (by rw [rest]; simp [adjacentMark])
  by_cases closed : x.after = []
  · left
    simp only [enclosedByRun?, Option.bind_eq_bind, Option.bind_eq_some_iff,
      Option.some.injEq] at h
    obtain ⟨outer, houter, ⟨first, between⟩, hrun, rfl⟩ := h
    obtain ⟨token, text⟩ := cutLast?_parts houter
    simp only at closed ⊢
    rw [Split.text, token, closed, List.append_nil, copies_singleton] at text
    obtain ⟨rest, hrest⟩ : ∃ rest, outer.before =
        before ++ List.replicate n '(' ++ rest ∧ '(' ∉ rest := by
      rw [split, List.append_eq_append_iff] at text
      rcases text with ⟨t, head, hafter⟩ | ⟨t, head, closings⟩
      · exact ⟨t, head, fun again => last (by rw [hafter]; simp [again])⟩
      · rcases List.eq_nil_or_concat t with rfl | ⟨t, d, rfl⟩
        · exact ⟨[], by simpa using head.symm, by simp⟩
        · have closing : d = ')' :=
            List.eq_of_mem_replicate (n := n) (by rw [closings]; simp)
          obtain ⟨m, rfl⟩ : ∃ m, n = m + 1 := ⟨n - 1, by omega⟩
          rw [List.replicate_succ', List.concat_eq_append, ← List.append_assoc,
            ← List.append_assoc] at head
          have ends := (List.append_inj' head rfl).2
          rw [closing] at ends
          simp at ends
    rw [hrest.1, openingRun?_singleton positive maximal hrest.2] at hrun
    cases hrun
    exact started
  · exact .inr closed

theorem byteLength_adjacent {s : Text} {o : Operand} (found : adjacentMark <:+: s)
    (h : o ∈ (Cut.adjacent s).operands) : byteLength o.text < byteLength s := by
  rw [Cut.adjacent] at h
  split at h
  · simp [Cut.operands] at h
  · next x hx =>
      obtain ⟨_, _, hs⟩ := enclosedByRun?_parts hx
      have positive := byteLength_pos (closing_ne_nil_of_enclosedByRun? hx)
      rw [hs]
      simp only [Cut.operands, Operand.ofDecorated, List.mem_cons, List.not_mem_nil,
        or_false] at h
      simp only [Enclosure.text, byteLength_append]
      rcases h with rfl | rfl | rfl
      · simp only
        omega
      · simp only [byteLength_append]
        rcases before_or_after_of_adjacent found hx with side | side <;>
          have := byteLength_pos side <;> omega
      · simp only
        omega

theorem byteLength_undivided {s : Text} {o : Operand} (h : o ∈ (Cut.undivided s).operands) :
    byteLength o.text < byteLength s := by
  rw [Cut.undivided] at h
  split at h
  · next found => exact byteLength_ofPiece found h
  · split at h
    · next found => exact byteLength_ofPiece found h
    · split at h
      · exact byteLength_partialLock h
      · split at h
        · next found =>
            exact byteLength_adjacent
              ((contains_eq_true_iff (by simp [adjacentMark])).mp found) h
        · rw [Cut.single] at h
          split at h
          split at h <;> simp [Cut.operands] at h

theorem byteLength_lt_of_mem_cut {s : Text} {o : Operand} (h : o ∈ (cut s).operands) :
    byteLength o.text < byteLength s := by
  rw [cut] at h
  split at h
  · exact byteLength_group h
  · exact byteLength_stationScope h
  · next x hx =>
      obtain ⟨_, hlast⟩ := cutLast?_of_furthestRight? hx
      obtain ⟨token, text⟩ := cutLast?_parts hlast
      exact text ▸ byteLength_exceptionAt (token ▸ token_ne_nil_of_cutLast? hlast) h
  · exact byteLength_undivided h

end Formula

end SignalBox
