import SignalBox.Proofs.Text.Locate

namespace SignalBox.Text

variable {token separator s x y : Text} {c d : Char}

theorem splitOn_ne_nil (separator s : Text) : splitOn separator s ≠ [] := by
  rw [splitOn]
  split
  · exact List.cons_ne_nil _ _
  · split <;> exact List.cons_ne_nil _ _

theorem intercalate_splitOn (nonempty : separator ≠ []) (s : Text) :
    separator.intercalate (splitOn separator s) = s := by
  fun_induction splitOn separator s with
  | case1 => contradiction
  | case2 s => exact List.intercalate_singleton
  | case3 s _ x found _ ih =>
      obtain ⟨_, token, text⟩ := cutFirst?_parts found
      rw [List.intercalate_cons_of_ne_nil (splitOn_ne_nil _ _), ih, text, Split.text, token]

theorem splitOn_eq_singleton (nonempty : token ≠ []) (absent : ¬ token <:+: s) :
    splitOn token s = [s] := by
  rw [splitOn, if_neg nonempty]
  split
  · rfl
  · next x found =>
      obtain ⟨_, same, text⟩ := cutFirst?_parts found
      exact absurd ⟨x.before, x.after, by rw [text, Split.text, same]⟩ absent

theorem splitOn_cons (nonempty : token ≠ []) (absent : ¬ token <+: c :: s) :
    splitOn token (c :: s) = (splitOn token s).modifyHead (c :: ·) := by
  have cut : cutFirst? token (c :: s) =
      (cutFirst? token s).map fun x => { x with before := c :: x.before } := by
    rw [cutFirst?, if_neg nonempty, dropStart?_eq_none_iff.mpr absent]
  rw [splitOn, splitOn, if_neg nonempty, if_neg nonempty]
  split
  · next none =>
      split
      · rfl
      · next x found => rw [cut, found] at none; contradiction
  · next x found =>
      split
      · next none => rw [cut, none] at found; contradiction
      · next y other =>
          rw [cut, other] at found
          cases found
          rfl

theorem splitOn_self_append (nonempty : token ≠ []) (s : Text) :
    splitOn token (token ++ s) = [] :: splitOn token s := by
  have cut : cutFirst? token (token ++ s) = some ⟨[], token, s⟩ := by
    cases token with
    | nil => contradiction
    | cons c token =>
        have rest : dropStart? (c :: token) (c :: (token ++ s)) = some s :=
          dropStart?_eq_some_iff.mpr rfl
        rw [List.cons_append, cutFirst?, if_neg nonempty, rest]
  rw [splitOn, if_neg nonempty]
  split
  · next none => rw [cut] at none; contradiction
  · next x found =>
      rw [cut] at found
      cases found
      rfl

theorem cutFirst?_first {x : Split} (found : cutFirst? token s = some x) (before after : Text)
    (parts : s = before ++ token ++ after) : x.before.length ≤ before.length := by
  induction s generalizing x before with
  | nil => simp [cutFirst?] at found
  | cons c s ih =>
      rw [cutFirst?] at found
      split at found
      · contradiction
      · split at found
        · cases found
          exact Nat.zero_le _
        · next absent =>
            obtain ⟨y, later, rfl⟩ := Option.map_eq_some_iff.mp found
            cases before with
            | nil => exact absurd ⟨after, parts.symm⟩ (dropStart?_eq_none_iff.mp absent)
            | cons d before =>
                obtain ⟨rfl, rest⟩ := List.cons.inj parts
                exact Nat.succ_le_succ (ih later before rest)

theorem not_infix_before {x : Split} (found : cutFirst? token s = some x) :
    ¬ token <:+: x.before := by
  rintro ⟨front, back, inside⟩
  obtain ⟨nonempty, _, text⟩ := cutFirst?_parts found
  have first := cutFirst?_first found front (back ++ x.token ++ x.after) (by
    rw [text, Split.text, ← inside]
    simp only [List.append_assoc])
  have positive := List.length_pos_iff.mpr nonempty
  rw [← inside] at first
  simp only [List.length_append] at first
  omega

theorem not_infix_of_mem_splitOn (nonempty : token ≠ []) {piece : Text}
    (member : piece ∈ splitOn token s) : ¬ token <:+: piece := by
  fun_induction splitOn token s with
  | case1 => contradiction
  | case2 s _ absent =>
      rw [List.mem_singleton.mp member, ← contains_eq_true_iff nonempty, contains, absent]
      exact Bool.false_ne_true
  | case3 s _ x found _ ih =>
      rcases List.mem_cons.mp member with rfl | later
      · exact not_infix_before found
      · exact ih later

/-- No token stands in the first text, and none that starts there can go on in the second. -/
theorem splitOn_append (nonempty : token ≠ []) (absent : ¬ token <:+: x) (starts : y.head? = some d)
    (apart : d ∉ token.tail) :
    splitOn token (x ++ y) = (splitOn token y).modifyHead (x ++ ·) := by
  induction x with
  | nil =>
      cases pieces : splitOn token y with
      | nil => exact absurd pieces (splitOn_ne_nil _ _)
      | cons first rest => rw [List.nil_append, pieces]; rfl
  | cons c x ih =>
      have inside : ¬ token <:+: x := fun found => absent (List.infix_cons_iff.mpr (.inr found))
      have here : ¬ token <+: c :: (x ++ y) := by
        rintro ⟨rest, occurs⟩
        rw [← List.cons_append, List.append_eq_append_iff] at occurs
        rcases occurs with ⟨more, inFirst, _⟩ | ⟨more, crosses, second⟩
        · exact absent ⟨[], more, inFirst.symm⟩
        · cases more with
          | nil => exact absent ⟨[], [], by simpa using crosses⟩
          | cons e more =>
              rw [second] at starts
              cases starts
              exact apart (by rw [crosses]; simp)
      rw [List.cons_append, splitOn_cons nonempty here, ih inside]
      cases pieces : splitOn token y with
      | nil => exact absurd pieces (splitOn_ne_nil _ _)
      | cons first rest => rfl

theorem infix_of_mem_splitOn (nonempty : token ≠ []) {piece : Text}
    (member : piece ∈ splitOn token s) : piece <:+: s := by
  fun_induction splitOn token s with
  | case1 => contradiction
  | case2 s =>
      cases List.mem_singleton.mp member
      exact List.infix_rfl
  | case3 s _ x found _ ih =>
      have text := (cutFirst?_parts found).2.2
      rcases List.mem_cons.mp member with rfl | later
      · exact ⟨[], x.token ++ x.after, by rw [text, Split.text, List.nil_append, List.append_assoc]⟩
      · exact (ih later).trans ⟨x.before ++ x.token, [], by rw [List.append_nil, text, Split.text]⟩

theorem splitOn_append_separator (starts : token.head? = some d) (apart : d ∉ token.tail)
    (x y : Text) : splitOn token (x ++ token ++ y) = splitOn token x ++ splitOn token y := by
  have nonempty : token ≠ [] := by
    rintro rfl
    contradiction
  have front : ∀ x y, ¬ token <:+: x →
      splitOn token (x ++ (token ++ y)) = x :: splitOn token y := by
    intro x y absent
    have begins : (token ++ y).head? = some d := by rw [List.head?_append, starts, Option.some_or]
    rw [splitOn_append nonempty absent begins apart, splitOn_self_append nonempty]
    simp
  fun_induction splitOn token x with
  | case1 => contradiction
  | case2 x _ absent =>
      rw [List.append_assoc, front x y]
      · rfl
      · rw [← contains_eq_true_iff nonempty, contains, absent]
        exact Bool.false_ne_true
  | case3 x _ split found _ ih =>
      obtain ⟨_, same, text⟩ := cutFirst?_parts found
      rw [text, Split.text, same, List.append_assoc, List.append_assoc, List.append_assoc,
        front _ _ (not_infix_before found), ← List.append_assoc, ih, List.cons_append]

theorem splitOn_intercalate {first : Text} {rest : List Text} (starts : separator.head? = some d)
    (apart : d ∉ separator.tail) (whole : ∀ t, t ∈ first :: rest → ¬ separator <:+: t) :
    splitOn separator (separator.intercalate (first :: rest)) = first :: rest := by
  have nonempty : separator ≠ [] := by
    rintro rfl
    contradiction
  induction rest generalizing first with
  | nil =>
      rw [List.intercalate_singleton]
      exact splitOn_eq_singleton nonempty (whole first List.mem_cons_self)
  | cons second rest ih =>
      rw [List.intercalate_cons_cons, splitOn_append_separator starts apart,
        splitOn_eq_singleton nonempty (whole first List.mem_cons_self),
        ih fun t member => whole t (List.mem_cons_of_mem _ member)]
      rfl

theorem splitOn_singleton_of_not_mem (absent : c ∉ s) : splitOn [c] s = [s] :=
  splitOn_eq_singleton (List.cons_ne_nil _ _)
    fun found => absent (found.subset (List.mem_singleton.mpr rfl))

theorem splitOn_singleton_append (c : Char) (x y : Text) :
    splitOn [c] (x ++ c :: y) = splitOn [c] x ++ splitOn [c] y := by
  rw [List.append_cons]
  exact splitOn_append_separator rfl (by simp) x y

theorem exists_splitOn_append (x : Text) (absent : c ∉ y) :
    ∃ earlier last, splitOn [c] x = earlier ++ [last] ∧
      splitOn [c] (x ++ y) = earlier ++ [last ++ y] := by
  by_cases member : c ∈ x
  · obtain ⟨front, back, rfl, last⟩ := exists_last_of_mem member
    have goesOn : c ∉ back ++ y := by simp [last, absent]
    refine ⟨splitOn [c] front, back, ?_, ?_⟩
    · rw [splitOn_singleton_append, splitOn_singleton_of_not_mem last]
    · rw [List.append_assoc, List.cons_append, splitOn_singleton_append,
        splitOn_singleton_of_not_mem goesOn]
  · refine ⟨[], x, splitOn_singleton_of_not_mem member, splitOn_singleton_of_not_mem ?_⟩
    simp [member, absent]

end SignalBox.Text
