import Mathlib.Computability.StateTransition
import Mathlib.Data.Nat.SuccPred
import Mathlib.Order.SuccPred.Archimedean
import SignalBox.Proofs.Text.Occurrence
import SignalBox.Proofs.Text.Runs

/-! The enclosure around the last run of closings, by byte offsets. The search for its opening is
also told step by step, each step going by offsets alone: it comes to an end, and every offset that
it looks at on the way lies between two characters. -/

namespace SignalBox.Text

variable {c d : Char} {s unit front back rest before after : Text} {n i place start : Nat}

def maximalRuns (c : Char) (n : Nat) (s : Text) : Set Nat :=
  {offset | ∃ before after, s = before ++ List.replicate n c ++ after ∧
    before.getLast? ≠ some c ∧ after.head? ≠ some c ∧ byteLength before = offset}

theorem LastRun.isGreatest (found : LastRun c n s.length s before after) :
    IsGreatest (maximalRuns c n s) (byteLength before) := by
  refine ⟨⟨before, after, found.text, found.ends, found.starts, rfl⟩, ?_⟩
  rintro _ ⟨x, y, parts, ends, starts, rfl⟩
  have run : Run c s x.length n := parts ▸ run_of_parts found.run.positive ends starts
  have same := parts.symm.trans found.text
  rw [List.append_assoc, List.append_assoc] at same
  exact (byteLength_le_iff same).mpr (found.latest _ run.end_le run)

theorem Run.exists_lastRun (run : Run c s i n) :
    ∃ before after, LastRun c n s.length s before after := by
  have bounded : BddAbove {j | Run c s j n} :=
    ⟨s.length, fun _ other => Nat.le_trans (Nat.le_add_right _ _) (Run.end_le other)⟩
  obtain ⟨j, last, greatest⟩ := BddAbove.exists_isGreatest_of_nonempty bounded ⟨i, run⟩
  obtain ⟨before, after, text, rfl⟩ := Run.exists_parts last
  exact ⟨before, after, text, last.end_le, last, fun _ _ other => greatest other⟩

theorem openingRun?_isSome_iff (positive : 0 < n) :
    (openingRun? [c] n s []).isSome ↔ (maximalRuns c n s).Nonempty := by
  rw [Option.isSome_iff_exists]
  constructor
  · rintro ⟨⟨before, between⟩, found⟩
    rw [openingRun?_eq_some_iff positive, List.append_nil] at found
    exact ⟨_, found.isGreatest.1⟩
  · rintro ⟨_, before, after, parts, ends, starts, rfl⟩
    have run : Run c s before.length n := parts ▸ run_of_parts positive ends starts
    obtain ⟨front, back, last⟩ := run.exists_lastRun
    refine ⟨(front, back), ?_⟩
    rwa [openingRun?_eq_some_iff positive, List.append_nil]

/-- How far the search for a run of openings has come, in byte offsets: copies stand at `place`, and
their run goes from `start` to `stop` as far as it is known. -/
inductive Search where
  | seek (stop : Nat)
  | widenLeft (place start : Nat)
  | widenRight (place start stop : Nat)
  | done (openAt : Option Nat)
deriving DecidableEq, Repr

namespace Search

/-- Looks for copies that end at `stop` or before it, goes back over the copies before them and
forward over the copies behind them, and starts again in front of a run that is too long. There is
no step where a text would be cut at an offset that is not between two characters. -/
def step? (unit : Text) (n : Nat) (head : Text) : Search → Option Search
  | seek stop => (splitAt? stop head).map fun (front, _) =>
      match cutLast? (copies n unit) front with
      | none => done none
      | some x => widenLeft x.tokenAt x.tokenAt
  | widenLeft place start => (splitAt? start head).map fun (front, _) =>
      match dropEnd? unit front with
      | some _ => widenLeft place (start - byteLength unit)
      | none => widenRight place start (place + byteLength (copies n unit))
  | widenRight place start stop => (splitAt? stop head).map fun (_, back) =>
      match dropStart? unit back with
      | some _ => widenRight place start (stop + byteLength unit)
      | none =>
          if stop - start = byteLength (copies n unit) then done (some place) else seek start
  | done _ => none

theorem step?_seek (unit : Text) (n : Nat) (front back : Text) :
    step? unit n (front ++ back) (seek (byteLength front)) =
      some (match cutLast? (copies n unit) front with
        | none => done none
        | some x => widenLeft x.tokenAt x.tokenAt) := by
  rw [step?, splitAt?_byteLength, Option.map_some]

theorem step?_widenLeft (unit : Text) (n place : Nat) (front back : Text) :
    step? unit n (front ++ back) (widenLeft place (byteLength front)) =
      some (match dropEnd? unit front with
        | some _ => widenLeft place (byteLength front - byteLength unit)
        | none => widenRight place (byteLength front) (place + byteLength (copies n unit))) := by
  rw [step?, splitAt?_byteLength, Option.map_some]

theorem step?_widenRight (unit : Text) (n place start : Nat) (front back : Text) :
    step? unit n (front ++ back) (widenRight place start (byteLength front)) =
      some (match dropStart? unit back with
        | some _ => widenRight place start (byteLength front + byteLength unit)
        | none =>
            if byteLength front - start = byteLength (copies n unit) then done (some place)
            else seek start) := by
  rw [step?, splitAt?_byteLength, Option.map_some]

theorem reaches_leftEnd (absent : ¬ unit <:+ rest) (n place k : Nat) (back : Text) :
    StateTransition.Reaches (step? unit n (rest ++ copies k unit ++ back))
      (widenLeft place (byteLength (rest ++ copies k unit)))
      (widenRight place (byteLength rest) (place + byteLength (copies n unit))) := by
  induction k generalizing back with
  | zero =>
      refine .single ?_
      rw [copies_zero, List.append_nil, step?_widenLeft, dropEnd?_eq_none_iff.mpr absent]
      rfl
  | succ k ih =>
      have found : dropEnd? unit (rest ++ copies k unit ++ unit) = some (rest ++ copies k unit) :=
        dropEnd?_eq_some_iff.mpr rfl
      have later := ih (unit ++ back)
      rw [← List.append_assoc] at later
      rw [copies_succ', ← List.append_assoc]
      refine .head ?_ later
      rw [step?_widenLeft, found, byteLength_append _ unit, Nat.add_sub_cancel]
      rfl

theorem reaches_rightEnd (absent : ¬ unit <+: rest) (n place start k : Nat) (front : Text) :
    StateTransition.Reaches (step? unit n (front ++ (copies k unit ++ rest)))
      (widenRight place start (byteLength front))
      (if byteLength (front ++ copies k unit) - start = byteLength (copies n unit) then
        done (some place) else seek start) := by
  induction k generalizing front with
  | zero =>
      refine .single ?_
      rw [copies_zero, List.append_nil, step?_widenRight, List.nil_append,
        dropStart?_eq_none_iff.mpr absent]
      rfl
  | succ k ih =>
      have found : dropStart? unit (unit ++ (copies k unit ++ rest)) =
          some (copies k unit ++ rest) := dropStart?_eq_some_iff.mpr rfl
      have later := ih (front ++ unit)
      rw [copies_succ]
      simp only [List.append_assoc] at later ⊢
      refine .head ?_ later
      rw [step?_widenRight, found, byteLength_append]
      rfl

theorem byteLength_widened_iff (nonempty : unit ≠ []) (before : Text) (extra n more : Nat) :
    byteLength (before ++ copies extra unit ++ copies n unit ++ copies more unit) -
        byteLength before = byteLength (copies n unit) ↔
      extra = 0 ∧ more = 0 := by
  have positive := byteLength_pos nonempty
  simp only [byteLength_append, byteLength_copies]
  constructor
  · intro fits
    have nothing : extra * byteLength unit = 0 ∧ more * byteLength unit = 0 := by omega
    exact ⟨(Nat.mul_eq_zero.mp nothing.1).resolve_right (by omega),
      (Nat.mul_eq_zero.mp nothing.2).resolve_right (by omega)⟩
  · rintro ⟨rfl, rfl⟩
    rw [Nat.zero_mul]
    omega

theorem reaches_round {x : Split} (nonempty : unit ≠ [])
    (found : cutLast? (copies n unit) front = some x) (back : Text) :
    StateTransition.Reaches (step? unit n (front ++ back)) (seek (byteLength front))
      (if trailingCopies unit x.before = 0 ∧ leadingCopies unit (x.after ++ back) = 0 then
        done (some x.tokenAt)
      else
        seek (byteLength
          (x.before.take (x.before.length - trailingCopies unit x.before * unit.length)))) := by
  -- The whole run is `extra` copies, the `n` that were found and `more` copies; `pre` and `post`
  -- stand around it.
  obtain ⟨same, text⟩ := cutLast?_parts found
  obtain ⟨pre, preParts, preEnds⟩ := trailingCopies_append nonempty x.before
  obtain ⟨post, postParts, postStarts⟩ := leadingCopies_append nonempty (x.after ++ back)
  generalize trailingCopies unit x.before = extra at *
  generalize leadingCopies unit (x.after ++ back) = more at *
  have taken : x.before.take (x.before.length - extra * unit.length) = pre := by
    rw [preParts, List.length_append, length_copies, Nat.add_sub_cancel, List.take_left]
  have fits := byteLength_widened_iff nonempty pre extra n more
  rw [← preParts] at fits
  have whole : x.before ++ (copies n unit ++ (x.after ++ back)) = front ++ back := by
    rw [text, Split.text, same]
    simp only [List.append_assoc]
  have seeks : StateTransition.Reaches (step? unit n (front ++ back)) (seek (byteLength front))
      (widenLeft x.tokenAt x.tokenAt) := by
    refine .single ?_
    rw [step?_seek, found]
    rfl
  have left := reaches_leftEnd preEnds n x.tokenAt extra (copies n unit ++ (x.after ++ back))
  rw [← preParts, whole] at left
  have right := reaches_rightEnd postStarts n x.tokenAt (byteLength pre) more
    (x.before ++ copies n unit)
  rw [← postParts, List.append_assoc x.before (copies n unit) (x.after ++ back), whole,
    if_congr fits rfl rfl, byteLength_append] at right
  rw [taken]
  exact (seeks.trans left).trans right

theorem reaches_openingRun? (nonempty : unit ≠ []) (n : Nat) (front back : Text) :
    StateTransition.Reaches (step? unit n (front ++ back)) (seek (byteLength front))
      (done ((openingRun? unit n front back).map fun (before, _) => byteLength before)) := by
  fun_induction openingRun? unit n front back with
  | case1 front back absent =>
      refine .single ?_
      rw [step?_seek, absent]
      rfl
  | case2 front back x found _ back' extra maximal =>
      have round := reaches_round nonempty found back
      rwa [if_pos maximal] at round
  | case3 front back x found _ back' extra longer kept ih =>
      have round := reaches_round nonempty found back
      rw [if_neg longer] at round
      have whole : x.before.take kept ++ (x.before.drop kept ++ x.token ++ back') = front ++ back :=
        take_append_drop_of_cutLast? found kept back
      rw [whole] at ih
      exact round.trans ih

end Search

theorem isGreatest_of_enclosedByRun? {x : Enclosure}
    (found : enclosedByRun? [c] [d] n s = some x) :
    0 < n ∧ IsGreatest (occurrences (copies n [d]) s) x.closeAt ∧
      ∃ head, slice? 0 x.closeAt s = some head ∧ IsGreatest (maximalRuns c n head) x.openAt := by
  obtain ⟨_, _, last, nearest⟩ := enclosedByRun?_eq_some_iff.mp found
  obtain ⟨nonempty, _, text, greatest⟩ := cutLast?_eq_some_iff_isGreatest.mp last
  have positive := (copies_ne_nil_iff (List.cons_ne_nil d [])).mp nonempty
  rw [openingRun?_eq_some_iff positive, List.append_nil] at nearest
  rw [Split.tokenAt, ← x.closeAt_eq] at greatest
  refine ⟨positive, greatest, _, ?_, nearest.isGreatest⟩
  refine slice?_zero_eq_some_iff.mpr ⟨⟨x.closing ++ x.after, ?_⟩, x.closeAt_eq.symm⟩
  rw [text, Split.text, ← List.append_assoc]

/-- The last closings in a row, and of the maximal runs of as many openings before them the last
one, make the enclosure, and there is one if and only if both are there. The search for the opening
that goes by byte offsets comes to an end, and to the same opening: it never gets to an offset that
is not between two characters. -/
theorem enclosed_by_last_runs (c d : Char) (n : Nat) (s : Text) :
    ((enclosedByRun? [c] [d] n s).isSome ↔
      0 < n ∧ ∃ closeAt head, IsGreatest (occurrences (copies n [d]) s) closeAt ∧
        slice? 0 closeAt s = some head ∧ (maximalRuns c n head).Nonempty) ∧
    (∀ x, enclosedByRun? [c] [d] n s = some x →
      x.opening = copies n [c] ∧ x.closing = copies n [d] ∧ x.Slices s ∧
        IsGreatest (occurrences (copies n [d]) s) x.closeAt ∧
        ∃ head, slice? 0 x.closeAt s = some head ∧
          IsGreatest (maximalRuns c n head) x.openAt) ∧
    ∀ closeAt head, 0 < n → IsGreatest (occurrences (copies n [d]) s) closeAt →
      slice? 0 closeAt s = some head →
        .done ((enclosedByRun? [c] [d] n s).map Enclosure.openAt) ∈
          StateTransition.eval (Search.step? [c] n head) (.seek closeAt) := by
  have nonempty (positive : 0 < n) : copies n [d] ≠ [] :=
    (copies_ne_nil_iff (List.cons_ne_nil d [])).mpr positive
  refine ⟨⟨?_, ?_⟩, ?_, ?_⟩
  · intro found
    obtain ⟨x, found⟩ := Option.isSome_iff_exists.mp found
    obtain ⟨positive, last, head, sliced, greatest⟩ := isGreatest_of_enclosedByRun? found
    exact ⟨positive, x.closeAt, head, last, sliced, _, greatest.1⟩
  · rintro ⟨positive, closeAt, head, last, sliced, openings⟩
    obtain ⟨after, outer⟩ := exists_cutLast?_of_isGreatest (nonempty positive) last sliced
    rw [enclosedByRun?_of_cutLast? outer, Option.isSome_map]
    exact (openingRun?_isSome_iff positive).mpr openings
  · intro x found
    obtain ⟨opening, closing, text⟩ := enclosedByRun?_parts found
    obtain ⟨_, last, openings⟩ := isGreatest_of_enclosedByRun? found
    exact ⟨opening, closing, Enclosure.slices text, last, openings⟩
  · intro closeAt head positive last sliced
    obtain ⟨after, outer⟩ := exists_cutLast?_of_isGreatest (nonempty positive) last sliced
    have reaches := Search.reaches_openingRun? (List.cons_ne_nil c []) n head []
    rw [List.append_nil] at reaches
    rw [enclosedByRun?_of_cutLast? outer, Option.map_map,
      ← (slice?_zero_eq_some_iff.mp sliced).2, StateTransition.mem_eval]
    exact ⟨reaches, rfl⟩

theorem enclosed_by_last_runs_longer_between :
    ∃ s head : Text, s = "［［A［［［B［C］］D".toList ∧ head = "［［A［［［B［C".toList ∧
      enclosedByRun? ['［'] ['］'] 2 s =
        some ⟨[], "［［".toList, "A［［［B［C".toList, "］］".toList, "D".toList⟩ ∧
      0 < 2 ∧ IsGreatest (occurrences (copies 2 ['］']) s) 21 ∧ slice? 0 21 s = some head ∧
      IsGreatest (maximalRuns '［' 2 head) 0 ∧
      .done (some 0) ∈ StateTransition.eval (Search.step? ['［'] 2 head) (.seek 21) := by
  obtain ⟨_, located, ends⟩ := enclosed_by_last_runs '［' '］' 2 "［［A［［［B［C］］D".toList
  have found : enclosedByRun? ['［'] ['］'] 2 "［［A［［［B［C］］D".toList =
      some ⟨[], "［［".toList, "A［［［B［C".toList, "］］".toList, "D".toList⟩ := by
    decide +kernel
  obtain ⟨_, _, _, last, head, sliced, openings⟩ := located _ found
  have whole : slice? 0 21 "［［A［［［B［C］］D".toList = some "［［A［［［B［C".toList := by
    decide +kernel
  obtain rfl := Option.some.inj (sliced.symm.trans whole)
  have search := ends 21 _ Nat.two_pos last whole
  rw [found] at search
  exact ⟨_, _, rfl, rfl, found, Nat.two_pos, last, whole, openings, search⟩

end SignalBox.Text
