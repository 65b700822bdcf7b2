import SignalBox.Text.Run

/-! Maximal runs of one character, by the index where they start, and the search for the last
run of a given length. -/

namespace SignalBox.Text

/-- From index `start` on stand exactly `count` copies of `c`: no further copy adjoins them. -/
structure Run (c : Char) (s : Text) (start count : Nat) : Prop where
  positive : 0 < count
  filled : ∀ i, i < count → s[start + i]? = some c
  first : ∀ i, start = i + 1 → s[i]? ≠ some c
  last : s[start + count]? ≠ some c

variable {c d : Char} {s x y before after between front back : Text} {start count n i j : Nat}

theorem Run.copy (run : Run c s start count) (from_le : start ≤ i) (lt_end : i < start + count) :
    s[i]? = some c := by
  have copy := run.filled (i - start) (by omega)
  rwa [Nat.add_sub_cancel' from_le] at copy

theorem Run.end_le (run : Run c s start count) : start + count ≤ s.length := by
  have positive := run.positive
  have last := run.copy (i := start + count - 1) (by omega) (by omega)
  have := (List.getElem?_eq_some_iff.mp last).1
  omega

theorem Run.mem (run : Run c s start count) : c ∈ s :=
  List.mem_of_getElem? (run.filled 0 run.positive)

theorem Run.start_eq (run : Run c s start count) (other : Run c s i n)
    (start_le : start ≤ i) (reaches : i ≤ start + count) : i = start := by
  have := other.positive
  apply Classical.byContradiction
  intro differ
  rcases Nat.lt_or_eq_of_le reaches with inside | adjoins
  · exact other.first (i - 1) (by omega) (run.copy (by omega) (by omega))
  · exact run.last (adjoins ▸ other.copy (Nat.le_refl i) (by omega))

theorem Run.count_eq (run : Run c s start count) (other : Run c s start n) : n = count := by
  apply Classical.byContradiction
  intro differ
  rcases Nat.lt_or_gt_of_ne differ with less | more
  · exact other.last (run.copy (by omega) (by omega))
  · exact run.last (other.copy (by omega) (by omega))

theorem run_replicate (positive : 0 < n) : Run c (List.replicate n c) 0 n where
  positive := positive
  filled i lt := by rw [Nat.zero_add, List.getElem?_replicate_of_lt lt]
  first i eq := by omega
  last := by simp

theorem Run.eq_of_replicate (run : Run c (List.replicate n c) start count) :
    start = 0 ∧ count = n := by
  have positive := run.positive
  have fits := run.end_le
  rw [List.length_replicate] at fits
  have whole : Run c (List.replicate n c) 0 n := run_replicate (by omega)
  obtain rfl := whole.start_eq run (Nat.zero_le _) (by omega)
  exact ⟨rfl, whole.count_eq run⟩

def Apart (c : Char) (x y : Text) : Prop :=
  x.getLast? = some c → y.head? ≠ some c

theorem apart_of_getLast? (ends : x.getLast? ≠ some c) : Apart c x y :=
  fun same => absurd same ends

theorem apart_of_head? (starts : y.head? ≠ some c) : Apart c x y :=
  fun _ => starts

theorem Run.append_left (run : Run c x start count) (apart : Apart c x y) :
    Run c (x ++ y) start count where
  positive := run.positive
  filled i lt := by
    have := run.end_le
    rw [List.getElem?_append_left (by omega), run.filled i lt]
  first i eq := by
    have := run.end_le
    rw [List.getElem?_append_left (by have := run.positive; omega)]
    exact run.first i eq
  last := by
    have positive := run.positive
    rcases Nat.lt_or_eq_of_le run.end_le with inside | ends
    · rw [List.getElem?_append_left inside]
      exact run.last
    · have final : x.getLast? = some c := by
        rw [List.getLast?_eq_getElem?, ← ends]
        exact run.copy (by omega) (by omega)
      rw [ends, List.getElem?_append_right (Nat.le_refl _), Nat.sub_self,
        ← List.head?_eq_getElem?]
      exact apart final

theorem Run.append_right (run : Run c y start count) (apart : Apart c x y) :
    Run c (x ++ y) (x.length + start) count where
  positive := run.positive
  filled i lt := by
    rw [List.getElem?_append_right (by omega), Nat.add_assoc, Nat.add_sub_cancel_left]
    exact run.filled i lt
  first i eq := by
    cases start with
    | zero =>
        have starts : y.head? = some c := by
          rw [List.head?_eq_getElem?]
          exact run.filled 0 run.positive
        intro ends
        refine apart ?_ starts
        rw [List.getElem?_append_left (by omega)] at ends
        rw [List.getLast?_eq_getElem?, ← ends]
        congr 1
        omega
    | succ start =>
        obtain rfl : i = x.length + start := by omega
        rw [List.getElem?_append_right (by omega), Nat.add_sub_cancel_left]
        exact run.first start rfl
  last := by
    rw [List.getElem?_append_right (by omega), Nat.add_assoc, Nat.add_sub_cancel_left]
    exact run.last

theorem Run.of_append_left (run : Run c (x ++ y) start count) (apart : Apart c x y)
    (inLeft : start < x.length) : Run c x start count := by
  have positive := run.positive
  have left : ∀ i, i < x.length → (x ++ y)[i]? = x[i]? :=
    fun i lt => List.getElem?_append_left lt
  have ends : start + count ≤ x.length := by
    apply Classical.byContradiction
    intro crosses
    refine apart ?_ ?_
    · rw [List.getLast?_eq_getElem?, ← left _ (by omega)]
      exact run.copy (by omega) (by omega)
    · have copy := run.copy (i := x.length) (by omega) (by omega)
      rwa [List.getElem?_append_right (Nat.le_refl _), Nat.sub_self,
        ← List.head?_eq_getElem?] at copy
  refine ⟨positive, ?_, ?_, ?_⟩
  · intro i lt
    rw [← left _ (by omega)]
    exact run.filled i lt
  · intro i eq
    rw [← left _ (by omega)]
    exact run.first i eq
  · rcases Nat.lt_or_eq_of_le ends with inside | ends
    · rw [← left _ inside]
      exact run.last
    · rw [List.getElem?_eq_none (by omega)]
      exact nofun

theorem Run.of_append_right (run : Run c (x ++ y) (x.length + i) count) : Run c y i count where
  positive := run.positive
  filled j lt := by
    have copy := run.filled j lt
    rwa [List.getElem?_append_right (by omega), Nat.add_assoc, Nat.add_sub_cancel_left] at copy
  first j eq := by
    have first := run.first (x.length + j) (by omega)
    rwa [List.getElem?_append_right (by omega), Nat.add_sub_cancel_left] at first
  last := by
    have last := run.last
    rwa [List.getElem?_append_right (by omega), Nat.add_assoc, Nat.add_sub_cancel_left] at last

theorem run_append_iff (apart : Apart c x y) :
    Run c (x ++ y) start count ↔
      Run c x start count ∨ ∃ i, start = x.length + i ∧ Run c y i count := by
  constructor
  · intro run
    by_cases inLeft : start < x.length
    · exact .inl (run.of_append_left apart inLeft)
    · obtain ⟨i, rfl⟩ := Nat.exists_eq_add_of_le (Nat.le_of_not_lt inLeft)
      exact .inr ⟨i, rfl, run.of_append_right⟩
  · rintro (run | ⟨i, rfl, run⟩)
    · exact run.append_left apart
    · exact run.append_right apart

theorem Run.of_append (run : Run c (x ++ y) start count) (apart : Apart c x y) :
    (∃ i, Run c x i count) ∨ ∃ i, Run c y i count := by
  rcases (run_append_iff apart).mp run with inLeft | ⟨i, _, inRight⟩
  · exact .inl ⟨start, inLeft⟩
  · exact .inr ⟨i, inRight⟩

theorem run_of_parts (positive : 0 < n) (ends : before.getLast? ≠ some c)
    (starts : after.head? ≠ some c) :
    Run c (before ++ List.replicate n c ++ after) before.length n :=
  ((run_replicate positive).append_right (apart_of_getLast? ends)).append_left
    (apart_of_head? starts)

theorem Run.ends (run : Run c (before ++ List.replicate n c ++ after) before.length n) :
    before.getLast? ≠ some c := by
  intro final
  rw [List.getLast?_eq_getElem?] at final
  have := (List.getElem?_eq_some_iff.mp final).1
  refine run.first (before.length - 1) (by omega) ?_
  rw [List.append_assoc, List.getElem?_append_left this, final]

theorem Run.starts (run : Run c (before ++ List.replicate n c ++ after) before.length n) :
    after.head? ≠ some c := by
  intro next
  refine run.last ?_
  rw [List.getElem?_append_right (by simp), ← next, List.head?_eq_getElem?]
  simp

theorem Run.exists_parts (run : Run c s start n) :
    ∃ before after, s = before ++ List.replicate n c ++ after ∧ before.length = start := by
  have fits := run.end_le
  refine ⟨s.take start, s.drop (start + n), ?_, by rw [List.length_take]; omega⟩
  have copies : List.replicate n c = (s.drop start).take n := by
    symm
    rw [List.eq_replicate_iff]
    refine ⟨by simp only [List.length_take, List.length_drop]; omega, ?_⟩
    intro d member
    obtain ⟨j, lt, rfl⟩ := List.mem_iff_getElem.mp member
    simp only [List.length_take, List.length_drop] at lt
    simpa using (List.getElem?_eq_some_iff.mp (run.filled j (by omega))).2
  rw [copies, List.append_assoc, ← List.drop_drop, List.take_append_drop, List.take_append_drop]

theorem leadingCopies_singleton_eq_zero_iff : leadingCopies [c] s = 0 ↔ s.head? ≠ some c := by
  rw [leadingCopies_eq_zero_iff (List.cons_ne_nil _ _), List.singleton_prefix_iff_head?_eq_some]

theorem trailingCopies_singleton_eq_zero_iff :
    trailingCopies [c] s = 0 ↔ s.getLast? ≠ some c := by
  rw [trailingCopies_eq_zero_iff (List.cons_ne_nil _ _), List.singleton_suffix_iff_getLast?_eq_some]

theorem trailingCopies_singleton_replicate (ends : before.getLast? ≠ some c) (n : Nat) :
    trailingCopies [c] (before ++ List.replicate n c) = n := by
  rw [← copies_singleton]
  exact trailingCopies_append_copies (List.cons_ne_nil _ _)
    (mt List.singleton_suffix_iff_getLast?_eq_some.mp ends) n

/-- The last maximal run of `n` copies of `c` that ends at index `limit` or before it. -/
structure LastRun (c : Char) (n limit : Nat) (s before after : Text) : Prop where
  text : s = before ++ List.replicate n c ++ after
  within : before.length + n ≤ limit
  run : Run c s before.length n
  latest : ∀ i, i + n ≤ limit → Run c s i n → i ≤ before.length

theorem LastRun.ends (found : LastRun c n i s before after) : before.getLast? ≠ some c :=
  Run.ends (found.text ▸ found.run)

theorem LastRun.starts (found : LastRun c n i s before after) : after.head? ≠ some c :=
  Run.starts (found.text ▸ found.run)

theorem LastRun.not_later (found : LastRun c n s.length s before after) (i : Nat) :
    ¬ Run c after i n := by
  intro later
  have apart : Apart c (before ++ List.replicate n c) after := apart_of_head? found.starts
  have run := later.append_right apart
  rw [← found.text] at run
  have behind := found.latest _ run.end_le run
  rw [List.length_append, List.length_replicate] at behind
  have := found.run.positive
  omega

theorem lastRun_of_parts (positive : 0 < n) (ends : before.getLast? ≠ some c)
    (starts : after.head? ≠ some c) (later : ∀ i, ¬ Run c after i n) :
    LastRun c n (before ++ List.replicate n c ++ after).length
      (before ++ List.replicate n c ++ after) before after where
  text := rfl
  within := by simp
  run := run_of_parts positive ends starts
  latest := by
    intro i _ run
    rcases (run_append_iff (apart_of_head? starts)).mp run with earlier | ⟨j, _, run⟩
    · have end_le := earlier.end_le
      rw [List.length_append, List.length_replicate] at end_le
      omega
    · exact absurd run (later j)

theorem LastRun.unique (one : LastRun c n i s before after) (other : LastRun c n i s x y) :
    x = before ∧ y = after := by
  have sameLength : x.length = before.length :=
    Nat.le_antisymm (one.latest _ other.within other.run) (other.latest _ one.within one.run)
  have parts := other.text.symm.trans one.text
  rw [List.append_assoc, List.append_assoc] at parts
  obtain ⟨sameBefore, rest⟩ := List.append_inj parts sameLength
  exact ⟨sameBefore, List.append_cancel_left rest⟩

theorem LastRun.limit_iff {limit : Nat}
    (same : ∀ j, Run c s j n → (j + n ≤ i ↔ j + n ≤ limit)) :
    LastRun c n i s before after ↔ LastRun c n limit s before after := by
  constructor
  · rintro ⟨text, within, run, latest⟩
    exact ⟨text, (same _ run).mp within, run,
      fun j within other => latest j ((same j other).mpr within) other⟩
  · rintro ⟨text, within, run, latest⟩
    exact ⟨text, (same _ run).mpr within, run,
      fun j within other => latest j ((same j other).mp within) other⟩

theorem Run.end_le_of_count_ne (long : Run c s start count) (run : Run c s i n)
    (differ : n ≠ count) (before_end : i ≤ start + count) : i + n ≤ start := by
  apply Classical.byContradiction
  intro reaches
  rcases Nat.le_total start i with later | earlier
  · obtain rfl := long.start_eq run later before_end
    exact differ (long.count_eq run)
  · obtain rfl := run.start_eq long earlier (by omega)
    exact differ (long.count_eq run)

theorem Run.le_of_cutLast? {split : Split} (run : Run c (front ++ back) i n)
    (last : cutLast? (copies n [c]) front = some split) (within : i + n ≤ front.length) :
    i ≤ split.before.length := by
  obtain ⟨before, after, parts, rfl⟩ := run.exists_parts
  obtain ⟨rest, whole⟩ : before ++ List.replicate n c <+: front :=
    List.prefix_of_prefix_length_le ⟨after, parts.symm⟩ (List.prefix_append front back)
      (by simpa using within)
  exact cutLast?_last last before rest (by rw [copies_singleton, whole])

/-- The copies at the end of `front` together with those that go on in `back` are one run, and it
is longer than the `n` copies that were found in it. -/
theorem exists_longer_run {split : Split} (last : cutLast? (copies n [c]) front = some split)
    (longer : ¬ (trailingCopies [c] split.before = 0 ∧
      leadingCopies [c] (split.after ++ back) = 0)) :
    ∃ count, n < count ∧
      Run c (front ++ back) (split.before.length - trailingCopies [c] split.before) count ∧
      split.before.length ≤
        split.before.length - trailingCopies [c] split.before + count := by
  obtain ⟨token, text⟩ := cutLast?_parts last
  obtain ⟨pre, preText, preEnds⟩ := trailingCopies_singleton_append c split.before
  obtain ⟨post, postText, postStarts⟩ :=
    leadingCopies_singleton_append c (split.after ++ back)
  have preLength := congrArg List.length preText
  rw [List.length_append, List.length_replicate] at preLength
  generalize trailingCopies [c] split.before = extra at *
  generalize leadingCopies [c] (split.after ++ back) = more at *
  have whole : front ++ back = pre ++ List.replicate (extra + n + more) c ++ post := by
    rw [text, Split.text, token, copies_singleton, preText, List.append_assoc _ _ back, postText]
    simp only [List.append_assoc, ← List.replicate_append_replicate]
  rw [leadingCopies_singleton_eq_zero_iff] at postStarts
  rw [trailingCopies_singleton_eq_zero_iff] at preEnds
  refine ⟨extra + n + more, by omega, ?_, by omega⟩
  rw [whole, show split.before.length - extra = pre.length by omega]
  refine run_of_parts ?_ preEnds postStarts
  omega

theorem LastRun.cutLast?_ne_none (found : LastRun c n front.length (front ++ back) before between)
    (positive : 0 < n) : cutLast? (copies n [c]) front ≠ none := by
  intro none
  have nonempty : copies n [c] ≠ [] := (copies_ne_nil_iff (List.cons_ne_nil _ _)).mpr positive
  have absent := (cutLast?_eq_none_iff nonempty).mp none
  rw [copies_singleton] at absent
  have within := found.within
  have parts := found.text
  rw [List.append_eq_append_iff] at parts
  rcases parts with ⟨rest, parts, _⟩ | ⟨rest, parts, _⟩
  · have length := congrArg List.length parts
    simp only [List.length_append, List.length_replicate] at length
    obtain rfl : rest = [] := List.eq_nil_of_length_eq_zero (by omega)
    exact absent ⟨before, [], by rw [parts, List.append_nil, List.append_nil]⟩
  · exact absent ⟨before, rest, by rw [parts]⟩

theorem lastRun_of_cutLast? {split : Split} (positive : 0 < n)
    (last : cutLast? (copies n [c]) front = some split)
    (maximal : trailingCopies [c] split.before = 0 ∧
      leadingCopies [c] (split.after ++ back) = 0) :
    LastRun c n front.length (front ++ back) split.before (split.after ++ back) := by
  obtain ⟨token, text⟩ := cutLast?_parts last
  rw [Split.text, token, copies_singleton] at text
  have whole : front ++ back =
      split.before ++ List.replicate n c ++ (split.after ++ back) := by
    rw [text]
    simp only [List.append_assoc]
  refine ⟨whole, ?_, ?_, fun i within run => run.le_of_cutLast? last within⟩
  · rw [text]
    simp
  · rw [whole]
    exact run_of_parts positive (trailingCopies_singleton_eq_zero_iff.mp maximal.1)
      (leadingCopies_singleton_eq_zero_iff.mp maximal.2)

theorem openingRun?_eq_some_iff (positive : 0 < n) :
    openingRun? [c] n front back = some (before, between) ↔
      LastRun c n front.length (front ++ back) before between := by
  fun_induction openingRun? [c] n front back with
  | case1 front back none =>
      constructor
      · intro found
        contradiction
      · intro found
        exact absurd none (found.cutLast?_ne_none positive)
  | case2 front back x last _ back' extra maximal =>
      have found := lastRun_of_cutLast? positive last maximal
      constructor
      · intro h
        obtain ⟨rfl, rfl⟩ := Prod.mk.inj (Option.some.inj h)
        exact found
      · intro other
        obtain ⟨rfl, rfl⟩ := found.unique other
        rfl
  | case3 front back x last _ back' extra longer kept ih =>
      obtain ⟨token, text⟩ := cutLast?_parts last
      obtain ⟨count, more, long, reaches⟩ := exists_longer_run last longer
      have keptLe : kept ≤ x.before.length := Nat.sub_le ..
      have keptEq : kept = x.before.length - trailingCopies [c] x.before := by
        simp [kept, extra]
      have whole : x.before.take kept ++ (x.before.drop kept ++ x.token ++ back') = front ++ back :=
        take_append_drop_of_cutLast? last kept back
      rw [ih, whole, List.length_take, Nat.min_eq_left keptLe]
      apply LastRun.limit_iff
      intro j run
      constructor
      · intro within
        have := congrArg List.length text
        simp only [Split.text, List.length_append] at this
        omega
      · intro within
        have before_end := run.le_of_cutLast? last within
        rw [keptEq]
        exact long.end_le_of_count_ne run (by omega) (by omega)

theorem runAtLast_eq (positive : 0 < n) (ends : before.getLast? ≠ some c) (absent : c ∉ after) :
    runAtLast [c] (before ++ List.replicate n c ++ after) = n := by
  obtain ⟨m, rfl⟩ : ∃ m, n = m + 1 := ⟨n - 1, by omega⟩
  have last : cutLast? [c] (before ++ List.replicate (m + 1) c ++ after) =
      some ⟨before ++ List.replicate m c, [c], after⟩ := by
    have whole : before ++ List.replicate (m + 1) c ++ after =
        before ++ List.replicate m c ++ List.replicate 1 c ++ after := by
      rw [List.append_assoc before (List.replicate m c), List.replicate_append_replicate]
    rw [whole]
    exact cutLast?_copies_singleton Nat.one_pos absent
  rw [runAtLast, last]
  exact congrArg (· + 1) (trailingCopies_singleton_replicate ends m)

theorem enclosedByRun?_eq (positive : 0 < n) (absent : d ∉ after) :
    enclosedByRun? [c] [d] n (front ++ List.replicate n d ++ after) =
      (openingRun? [c] n front []).map fun (before, between) =>
        ⟨before, copies n [c], between, copies n [d], after⟩ :=
  enclosedByRun?_of_cutLast? (cutLast?_copies_singleton positive absent)

end SignalBox.Text
