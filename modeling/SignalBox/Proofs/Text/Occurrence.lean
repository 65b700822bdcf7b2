import Mathlib.Order.Bounds.Basic
import SignalBox.Proofs.Text.Piece
import SignalBox.Text.Run

/-! Byte offsets in a text: where it can be cut, what lies between two of them, and where a token
stands. Whatever the ways to find tokens give is the greatest or the least of these offsets. -/

namespace SignalBox.Text

variable {s t x y front back before after token separator : Text} {offset start stop : Nat}

/-- The text before an offset and the text behind it. An offset inside a character or behind the
end cuts nothing. -/
def splitAt? : Nat → Text → Option (Text × Text)
  | offset, [] => if offset = 0 then some ([], []) else none
  | offset, c :: s =>
      if offset = 0 then some ([], c :: s)
      else if offset < c.utf8Size then none
      else (splitAt? (offset - c.utf8Size) s).map fun (front, back) => (c :: front, back)

theorem splitAt?_byteLength (front back : Text) :
    splitAt? (byteLength front) (front ++ back) = some (front, back) := by
  induction front with
  | nil => cases back <;> simp [splitAt?]
  | cons c front ih =>
      have := c.utf8Size_pos
      rw [byteLength_cons, List.cons_append, splitAt?, if_neg (by omega), if_neg (by omega),
        Nat.add_sub_cancel_left, ih, Option.map_some]

theorem splitAt?_eq_some_iff :
    splitAt? offset s = some (front, back) ↔ s = front ++ back ∧ byteLength front = offset := by
  constructor
  · intro cut
    induction s generalizing offset front with
    | nil =>
        rw [splitAt?] at cut
        split at cut
        · next zero =>
            cases cut
            exact ⟨rfl, zero.symm⟩
        · contradiction
    | cons c s ih =>
        rw [splitAt?] at cut
        split at cut
        · next zero =>
            cases cut
            exact ⟨rfl, zero.symm⟩
        · split at cut
          · contradiction
          · next behind =>
              obtain ⟨⟨first, rest⟩, later, same⟩ := Option.map_eq_some_iff.mp cut
              cases same
              obtain ⟨rfl, length⟩ := ih later
              refine ⟨rfl, ?_⟩
              rw [byteLength_cons]
              omega
  · rintro ⟨rfl, rfl⟩
    exact splitAt?_byteLength front back

def slice? (start stop : Nat) (s : Text) : Option Text :=
  (splitAt? stop s).bind fun (front, _) => (splitAt? start front).map Prod.snd

theorem slice?_eq_some_iff :
    slice? start stop s = some t ↔
      ∃ before after, s = before ++ t ++ after ∧ byteLength before = start ∧
        stop = start + byteLength t := by
  simp only [slice?, Option.bind_eq_some_iff, Option.map_eq_some_iff, Prod.exists,
    splitAt?_eq_some_iff]
  constructor
  · rintro ⟨front, after, ⟨rfl, rfl⟩, before, _, ⟨rfl, rfl⟩, rfl⟩
    exact ⟨before, after, rfl, rfl, byteLength_append _ _⟩
  · rintro ⟨before, after, rfl, rfl, rfl⟩
    exact ⟨before ++ t, after, ⟨rfl, byteLength_append _ _⟩, before, t, ⟨rfl, rfl⟩, rfl⟩

theorem slice?_zero_eq_some_iff : slice? 0 stop s = some t ↔ t <+: s ∧ byteLength t = stop := by
  rw [slice?_eq_some_iff]
  constructor
  · rintro ⟨before, after, rfl, none, rfl⟩
    rw [byteLength_eq_zero_iff.mp none, List.nil_append, Nat.zero_add]
    exact ⟨List.prefix_append _ _, rfl⟩
  · rintro ⟨⟨after, rfl⟩, rfl⟩
    exact ⟨[], after, rfl, rfl, (Nat.zero_add _).symm⟩

theorem byteLength_le_iff (same : x ++ y = front ++ back) :
    byteLength x ≤ byteLength front ↔ x.length ≤ front.length := by
  rcases List.append_eq_append_iff.mp same with ⟨more, rfl, _⟩ | ⟨more, rfl, _⟩
  · simp
  · cases more with
    | nil => simp
    | cons c more =>
        have := c.utf8Size_pos
        simp only [byteLength_append, byteLength_cons, List.length_append, List.length_cons]
        omega

def occurrences (token s : Text) : Set Nat :=
  {offset | ∃ before after, s = before ++ token ++ after ∧ byteLength before = offset}

theorem occurrences_eq_empty_iff : occurrences token s = ∅ ↔ ¬ token <:+: s := by
  rw [Set.eq_empty_iff_forall_notMem]
  constructor
  · rintro nowhere ⟨before, after, parts⟩
    exact nowhere _ ⟨before, after, parts.symm, rfl⟩
  · rintro absent offset ⟨before, after, parts, _⟩
    exact absent ⟨before, after, parts.symm⟩

theorem occurrences_front (token front back : Text) :
    occurrences token front =
      {offset | offset ∈ occurrences token (front ++ back) ∧
        offset + byteLength token ≤ byteLength front} := by
  ext offset
  constructor
  · rintro ⟨before, after, rfl, rfl⟩
    refine ⟨⟨before, after ++ back, List.append_assoc _ _ _, rfl⟩, ?_⟩
    rw [byteLength_append, byteLength_append]
    exact Nat.le_add_right _ _
  · rintro ⟨⟨before, after, parts, rfl⟩, within⟩
    rw [← byteLength_append, byteLength_le_iff parts.symm] at within
    obtain ⟨rest, rfl⟩ : before ++ token <+: front :=
      List.prefix_of_prefix_length_le ⟨after, parts.symm⟩ (List.prefix_append front back) within
    exact ⟨before, rest, rfl, rfl⟩

theorem isGreatest_occurrences_iff (parts : s = before ++ token ++ after) :
    IsGreatest (occurrences token s) (byteLength before) ↔
      ∀ x y, s = x ++ token ++ y → x.length ≤ before.length := by
  have order (x y : Text) (split : s = x ++ token ++ y) :
      byteLength x ≤ byteLength before ↔ x.length ≤ before.length := by
    have same : x ++ (token ++ y) = before ++ (token ++ after) := by
      rw [← List.append_assoc, ← List.append_assoc, ← split, parts]
    exact byteLength_le_iff same
  constructor
  · rintro ⟨_, greatest⟩ x y split
    exact (order x y split).mp (greatest ⟨x, y, split, rfl⟩)
  · intro last
    refine ⟨⟨before, after, parts, rfl⟩, ?_⟩
    rintro _ ⟨x, y, split, rfl⟩
    exact (order x y split).mpr (last x y split)

theorem cutLast?_eq_some_iff_isGreatest {x : Split} :
    cutLast? token s = some x ↔
      token ≠ [] ∧ x.token = token ∧ s = x.text ∧
        IsGreatest (occurrences token s) x.tokenAt := by
  rw [cutLast?_eq_some_iff]
  refine and_congr_right fun _ => and_congr_right fun same => and_congr_right fun text => ?_
  rw [Split.text, same] at text
  exact (isGreatest_occurrences_iff text).symm

theorem cutLast?_eq_none_iff_occurrences (nonempty : token ≠ []) :
    cutLast? token s = none ↔ occurrences token s = ∅ := by
  rw [cutLast?_eq_none_iff nonempty, occurrences_eq_empty_iff]

theorem exists_cutLast?_of_isGreatest (nonempty : token ≠ [])
    (last : IsGreatest (occurrences token s) offset) (sliced : slice? 0 offset s = some front) :
    ∃ after, cutLast? token s = some ⟨front, token, after⟩ := by
  obtain ⟨before, after, parts, rfl⟩ := last.1
  have whole : before <+: s := ⟨token ++ after, by rw [parts, List.append_assoc]⟩
  rw [slice?_zero_eq_some_iff.mpr ⟨whole, rfl⟩] at sliced
  obtain rfl := Option.some.inj sliced
  exact ⟨after, cutLast?_eq_some_iff_isGreatest.mpr ⟨nonempty, rfl, parts, last⟩⟩

/-- The first of the candidates that have the greatest last offset; `offset` is that offset. -/
def Foremost (mark : α → Text) (s : Text) (candidates : List α) (a : α) (offset : Nat) : Prop :=
  ∃ earlier later, candidates = earlier ++ a :: later ∧
    IsGreatest (occurrences (mark a) s) offset ∧
    (∀ b, b ∈ earlier → ∀ p, p ∈ occurrences (mark b) s → p < offset) ∧
    ∀ b, b ∈ later → ∀ p, p ∈ occurrences (mark b) s → p ≤ offset

section

variable {mark : α → Text} {candidates rest : List α} {a d : α}

theorem foremost_cons_iff :
    Foremost mark s (d :: rest) a offset ↔
      (d = a ∧ IsGreatest (occurrences (mark d) s) offset ∧
        ∀ b, b ∈ rest → ∀ p, p ∈ occurrences (mark b) s → p ≤ offset) ∨
      (Foremost mark s rest a offset ∧ ∀ p, p ∈ occurrences (mark d) s → p < offset) := by
  constructor
  · rintro ⟨earlier, later, parts, greatest, before, behind⟩
    cases earlier with
    | nil =>
        obtain ⟨rfl, rfl⟩ := List.cons.inj parts
        exact .inl ⟨rfl, greatest, behind⟩
    | cons e earlier =>
        obtain ⟨rfl, rfl⟩ := List.cons.inj parts
        obtain ⟨first, others⟩ := List.forall_mem_cons.mp before
        exact .inr ⟨⟨earlier, later, rfl, greatest, others, behind⟩, first⟩
  · rintro (⟨rfl, greatest, behind⟩ | ⟨⟨earlier, later, rfl, greatest, before, behind⟩, first⟩)
    · exact ⟨[], rest, rfl, greatest, nofun, behind⟩
    · exact ⟨d :: earlier, later, rfl, greatest, List.forall_mem_cons.mpr ⟨first, before⟩, behind⟩

theorem forall_occurrences_iff (nonempty : token ≠ []) (bound : Nat → Prop)
    (down : ∀ p q, p ≤ q → bound q → bound p) :
    (∀ p, p ∈ occurrences token s → bound p) ↔
      ∀ split, cutLast? token s = some split → bound split.tokenAt := by
  constructor
  · intro each split found
    exact each _ (cutLast?_eq_some_iff_isGreatest.mp found).2.2.2.1
  · intro last p occurs
    cases found : cutLast? token s with
    | none =>
        rw [(cutLast?_eq_none_iff_occurrences nonempty).mp found] at occurs
        contradiction
    | some split =>
        exact down _ _ ((cutLast?_eq_some_iff_isGreatest.mp found).2.2.2.2 occurs)
          (last split found)

theorem forall_furthestRight?_iff (nonempty : ∀ a, a ∈ candidates → mark a ≠ []) :
    (∀ a split, furthestRight? mark s candidates = some (a, split) → split.tokenAt ≤ offset) ↔
      ∀ b, b ∈ candidates → ∀ p, p ∈ occurrences (mark b) s → p ≤ offset := by
  constructor
  · intro best b member
    rw [forall_occurrences_iff (nonempty b member) (· ≤ offset) fun _ _ => Nat.le_trans]
    intro last found
    cases chosen : furthestRight? mark s candidates with
    | none =>
        rw [furthestRight?_eq_none_iff.mp chosen b member] at found
        contradiction
    | some first =>
        exact Nat.le_trans (tokenAt_le_of_furthestRight? chosen member found) (best _ _ chosen)
  · intro each a split chosen
    obtain ⟨member, found⟩ := cutLast?_of_furthestRight? chosen
    exact each a member _ (cutLast?_eq_some_iff_isGreatest.mp found).2.2.2.1

theorem furthestRight?_eq_some_iff {split : Split}
    (nonempty : ∀ a, a ∈ candidates → mark a ≠ []) :
    furthestRight? mark s candidates = some (a, split) ↔
      split.token = mark a ∧ s = split.text ∧ Foremost mark s candidates a split.tokenAt := by
  induction candidates generalizing a split with
  | nil => simp [furthestRight?, Foremost]
  | cons d rest ih =>
      obtain ⟨here, others⟩ := List.forall_mem_cons.mp nonempty
      rw [furthestRight?_cons_eq_some_iff, foremost_cons_iff, ih others,
        forall_furthestRight?_iff others, cutLast?_eq_some_iff_isGreatest,
        forall_occurrences_iff here (· < split.tokenAt) fun _ _ => Nat.lt_of_le_of_lt]
      constructor
      · rintro (⟨rfl, ⟨_, same, text, greatest⟩, behind⟩ | ⟨⟨same, text, later⟩, first⟩)
        · exact ⟨same, text, .inl ⟨rfl, greatest, behind⟩⟩
        · exact ⟨same, text, .inr ⟨later, first⟩⟩
      · rintro ⟨same, text, ⟨rfl, greatest, behind⟩ | ⟨later, first⟩⟩
        · exact .inl ⟨rfl, ⟨here, same, text, greatest⟩, behind⟩
        · exact .inr ⟨⟨same, text, later⟩, first⟩

end

theorem runAtLast_eq_zero_iff (nonempty : token ≠ []) :
    runAtLast token s = 0 ↔ occurrences token s = ∅ := by
  rw [← cutLast?_eq_none_iff_occurrences nonempty, runAtLast]
  cases cutLast? token s <;> simp

theorem runAtLast_eq_succ_iff (nonempty : token ≠ []) {k : Nat} :
    runAtLast token s = k + 1 ↔
      ∃ before after, s = before ++ copies (k + 1) token ++ after ∧ ¬ token <:+ before ∧
        IsGreatest (occurrences token s) (byteLength before + k * byteLength token) := by
  constructor
  · intro count
    rw [runAtLast] at count
    cases found : cutLast? token s with
    | none => rw [found] at count; contradiction
    | some split =>
        rw [found] at count
        obtain rfl := Nat.succ.inj count
        obtain ⟨_, same, text, greatest⟩ := cutLast?_eq_some_iff_isGreatest.mp found
        obtain ⟨before, run, maximal⟩ := trailingCopies_append nonempty split.before
        refine ⟨before, split.after, ?_, maximal, ?_⟩
        · rw [copies_succ', ← List.append_assoc, ← run, ← same]
          exact text
        · rwa [← byteLength_copies, ← byteLength_append, ← run]
  · rintro ⟨before, after, text, maximal, greatest⟩
    have found : cutLast? token s = some ⟨before ++ copies k token, token, after⟩ := by
      rw [cutLast?_eq_some_iff_isGreatest]
      refine ⟨nonempty, rfl, ?_, ?_⟩
      · rw [text, copies_succ', Split.text]
        simp only [List.append_assoc]
      · rwa [Split.tokenAt, byteLength_append, byteLength_copies]
    rw [runAtLast, found]
    exact congrArg (· + 1) (trailingCopies_append_copies nonempty maximal k)

/-- The parts are slices of a text between the offsets that they name. -/
structure Enclosure.Slices (x : Enclosure) (s : Text) : Prop where
  text : s = x.text
  before : slice? 0 x.openAt s = some x.before
  opening : slice? x.openAt x.betweenAt s = some x.opening
  between : slice? x.betweenAt x.closeAt s = some x.between
  closing : slice? x.closeAt x.afterAt s = some x.closing
  after : slice? x.afterAt (byteLength s) s = some x.after

theorem Enclosure.closeAt_eq (x : Enclosure) :
    x.closeAt = byteLength (x.before ++ x.opening ++ x.between) := by
  rw [byteLength_append, byteLength_append]
  rfl

theorem Enclosure.slices {x : Enclosure} (text : s = x.text) : x.Slices s where
  text := text
  before := by
    rw [slice?_zero_eq_some_iff, text, Enclosure.text]
    simp only [List.append_assoc]
    exact ⟨List.prefix_append _ _, rfl⟩
  opening := slice?_eq_some_iff.mpr
    ⟨x.before, x.between ++ x.closing ++ x.after, by rw [text, Enclosure.text]; simp, rfl, rfl⟩
  between := slice?_eq_some_iff.mpr
    ⟨x.before ++ x.opening, x.closing ++ x.after, by rw [text, Enclosure.text]; simp,
      byteLength_append _ _, rfl⟩
  closing := slice?_eq_some_iff.mpr
    ⟨x.before ++ x.opening ++ x.between, x.after, text, x.closeAt_eq.symm, rfl⟩
  after := by
    refine slice?_eq_some_iff.mpr ⟨x.before ++ x.opening ++ x.between ++ x.closing, [], ?_, ?_, ?_⟩
    · rw [text, Enclosure.text, List.append_nil]
    · rw [byteLength_append, ← x.closeAt_eq]
      rfl
    · rw [text, Enclosure.text, byteLength_append, byteLength_append, ← x.closeAt_eq]
      rfl

theorem enclosedByLast?_eq_some_iff_isGreatest {opening closing : Text} {x : Enclosure} :
    enclosedByLast? opening closing s = some x ↔
      opening ≠ [] ∧ closing ≠ [] ∧ x.opening = opening ∧ x.closing = closing ∧ s = x.text ∧
        IsGreatest (occurrences closing s) x.closeAt ∧
        IsGreatest {p | p ∈ occurrences opening s ∧ p + byteLength opening ≤ x.closeAt}
          x.openAt := by
  have front (parts : s = x.text) : occurrences opening (x.before ++ x.opening ++ x.between) =
      {p | p ∈ occurrences opening s ∧ p + byteLength opening ≤ x.closeAt} := by
    rw [x.closeAt_eq, parts, Enclosure.text, List.append_assoc _ x.closing]
    exact occurrences_front _ _ _
  rw [enclosedByLast?_eq_some_iff, cutLast?_eq_some_iff_isGreatest,
    cutLast?_eq_some_iff_isGreatest, Split.tokenAt, ← x.closeAt_eq]
  constructor
  · rintro ⟨same, sameToo, ⟨nonempty, _, parts, last⟩, nonemptyToo, _, _, nearest⟩
    exact ⟨nonemptyToo, nonempty, same, sameToo, parts, last, front parts ▸ nearest⟩
  · rintro ⟨nonemptyToo, nonempty, same, sameToo, parts, last, nearest⟩
    exact ⟨same, sameToo, ⟨nonempty, sameToo, parts, last⟩, nonemptyToo, same, rfl,
      (front parts).symm ▸ nearest⟩

theorem enclosedByLast?_isSome_iff {opening closing : Text} (nonempty : opening ≠ [])
    (nonemptyToo : closing ≠ []) :
    (enclosedByLast? opening closing s).isSome ↔
      ∃ closeAt, IsGreatest (occurrences closing s) closeAt ∧
        ∃ p, p ∈ occurrences opening s ∧ p + byteLength opening ≤ closeAt := by
  rw [Option.isSome_iff_exists]
  constructor
  · rintro ⟨x, found⟩
    obtain ⟨_, _, _, _, _, last, nearest⟩ := enclosedByLast?_eq_some_iff_isGreatest.mp found
    exact ⟨x.closeAt, last, x.openAt, nearest.1⟩
  · rintro ⟨_, last, p, occurs, ends⟩
    obtain ⟨front, back, parts, rfl⟩ := last.1
    have outer : cutLast? closing s = some ⟨front, closing, back⟩ :=
      cutLast?_eq_some_iff_isGreatest.mpr ⟨nonemptyToo, rfl, parts, last⟩
    have inFront : p ∈ occurrences opening front := by
      rw [occurrences_front opening front (closing ++ back), ← List.append_assoc, ← parts]
      exact ⟨occurs, ends⟩
    rw [enclosedByLast?_of_cutLast? outer]
    cases inner : cutLast? opening front with
    | none =>
        rw [(cutLast?_eq_none_iff_occurrences nonempty).mp inner] at inFront
        contradiction
    | some x => exact ⟨_, rfl⟩

theorem isLeast_of_cutFirst? {split : Split} (found : cutFirst? token s = some split)
    (front : Text) :
    IsLeast {k | k ∈ occurrences token (front ++ s) ∧ byteLength front ≤ k}
      (byteLength front + byteLength split.before) := by
  obtain ⟨_, same, text⟩ := cutFirst?_parts found
  rw [Split.text, same] at text
  constructor
  · refine ⟨⟨front ++ split.before, split.after, ?_, byteLength_append _ _⟩, Nat.le_add_right _ _⟩
    rw [text]
    simp only [List.append_assoc]
  · rintro _ ⟨⟨before, after, parts, rfl⟩, behind⟩
    rw [List.append_assoc] at parts
    rw [byteLength_le_iff parts] at behind
    obtain ⟨more, rfl⟩ : front <+: before :=
      List.prefix_of_prefix_length_le ⟨_, rfl⟩ ⟨_, parts.symm⟩ behind
    rw [List.append_assoc] at parts
    have later : s = more ++ (token ++ after) := List.append_cancel_left parts
    have first := cutFirst?_first found more after (by rw [later, List.append_assoc])
    rw [← byteLength_le_iff (by rw [← later, text, List.append_assoc])] at first
    rw [byteLength_append]
    exact Nat.add_le_add_left first _

/-- A piece goes on up to the first separator that starts in it or behind it, and the next piece
starts behind that separator. -/
theorem isChain_pieces (nonempty : separator ≠ []) (s : Text) :
    (pieces separator s).IsChain fun p q =>
      IsLeast {k | k ∈ occurrences separator s ∧ p.offset ≤ k} p.stop ∧
        q.offset = p.stop + byteLength separator := by
  -- The pieces of the rest are placed behind what is already split: `front` is that text.
  have chain (front : Text) :
      (Piece.placed (byteLength separator) (byteLength front) (splitOn separator s)).IsChain
        fun p q =>
          IsLeast {k | k ∈ occurrences separator (front ++ s) ∧ p.offset ≤ k} p.stop ∧
            q.offset = p.stop + byteLength separator := by
    fun_induction splitOn separator s generalizing front with
    | case1 => contradiction
    | case2 => exact .singleton _
    | case3 s _ x found _ ih =>
        obtain ⟨_, same, text⟩ := cutFirst?_parts found
        rw [Split.text, same] at text
        have later := ih (front ++ x.before ++ separator)
        have whole : front ++ x.before ++ separator ++ x.after = front ++ s := by
          rw [text]
          simp only [List.append_assoc]
        rw [whole, byteLength_append, byteLength_append] at later
        rw [Piece.placed]
        cases rest : splitOn separator x.after with
        | nil => exact absurd rest (splitOn_ne_nil _ _)
        | cons next rest' =>
            rw [rest] at later
            exact .cons_cons ⟨isLeast_of_cutFirst? found front, rfl⟩ later
  exact chain []

/-- The occurrences of tokens settle what is found. Of several candidates it is the first of those
whose last occurrence starts furthest right. A run is counted back from the last occurrence of its
token, as far as the token stands without a gap. An enclosure has the last closing and the last of
the openings that end at or before it. Pieces are what lies between the separators, each found
from the left behind the one before it. All parts are slices of the text at their offsets. -/
theorem located_by_occurrences (s : Text) :
    (∀ (mark : α → Text) (candidates : List α), (∀ a, a ∈ candidates → mark a ≠ []) →
      (furthestRight? mark s candidates = none ↔
        ∀ a, a ∈ candidates → occurrences (mark a) s = ∅) ∧
      ∀ a split, furthestRight? mark s candidates = some (a, split) ↔
        split.token = mark a ∧ s = split.text ∧
          Foremost mark s candidates a split.tokenAt) ∧
    (∀ token, token ≠ [] →
      (cutLast? token s = none ↔ occurrences token s = ∅) ∧
      ∀ split, cutLast? token s = some split ↔
        split.token = token ∧ s = split.text ∧
          IsGreatest (occurrences token s) split.tokenAt) ∧
    (∀ token, token ≠ [] →
      (runAtLast token s = 0 ↔ occurrences token s = ∅) ∧
      ∀ k, runAtLast token s = k + 1 ↔
        ∃ before after, s = before ++ copies (k + 1) token ++ after ∧ ¬ token <:+ before ∧
          IsGreatest (occurrences token s) (byteLength before + k * byteLength token)) ∧
    (∀ opening closing, opening ≠ [] → closing ≠ [] →
      ((enclosedByLast? opening closing s).isSome ↔
        ∃ closeAt, IsGreatest (occurrences closing s) closeAt ∧
          ∃ p, p ∈ occurrences opening s ∧ p + byteLength opening ≤ closeAt) ∧
      ∀ x, enclosedByLast? opening closing s = some x →
        x.opening = opening ∧ x.closing = closing ∧ x.Slices s ∧
          IsGreatest (occurrences closing s) x.closeAt ∧
          IsGreatest {p | p ∈ occurrences opening s ∧ p + byteLength opening ≤ x.closeAt}
            x.openAt) ∧
    ∀ separator, separator ≠ [] →
      separator.intercalate ((pieces separator s).map Piece.text) = s ∧
      (pieces separator s).head?.map Piece.offset = some 0 ∧
      (∀ p, p ∈ pieces separator s →
        slice? p.offset p.stop s = some p.text ∧ occurrences separator p.text = ∅) ∧
      (pieces separator s).IsChain fun p q =>
        IsLeast {k | k ∈ occurrences separator s ∧ p.offset ≤ k} p.stop ∧
          q.offset = p.stop + byteLength separator := by
  refine ⟨?_, ?_, ?_, ?_, ?_⟩
  · intro mark candidates nonempty
    refine ⟨?_, fun a split => furthestRight?_eq_some_iff nonempty⟩
    rw [furthestRight?_eq_none_iff]
    exact forall₂_congr fun a member => cutLast?_eq_none_iff_occurrences (nonempty a member)
  · intro token nonempty
    refine ⟨cutLast?_eq_none_iff_occurrences nonempty, fun split => ?_⟩
    rw [cutLast?_eq_some_iff_isGreatest, and_iff_right nonempty]
  · intro token nonempty
    exact ⟨runAtLast_eq_zero_iff nonempty, fun k => runAtLast_eq_succ_iff nonempty⟩
  · intro opening closing nonempty nonemptyToo
    refine ⟨enclosedByLast?_isSome_iff nonempty nonemptyToo, ?_⟩
    intro x found
    obtain ⟨_, _, same, sameToo, text, last, nearest⟩ :=
      enclosedByLast?_eq_some_iff_isGreatest.mp found
    exact ⟨same, sameToo, Enclosure.slices text, last, nearest⟩
  · intro separator nonempty
    refine ⟨?_, ?_, ?_, isChain_pieces nonempty s⟩
    · rw [pieces, map_text_placed, intercalate_splitOn nonempty]
    · rw [pieces]
      cases parts : splitOn separator s with
      | nil => exact absurd parts (splitOn_ne_nil _ _)
      | cons => rfl
    · intro p member
      obtain ⟨before, after, text, start⟩ := within_of_mem_pieces nonempty member
      refine ⟨slice?_eq_some_iff.mpr ⟨before, after, text, ?_, rfl⟩, ?_⟩
      · rw [start, Nat.zero_add]
      · rw [occurrences_eq_empty_iff]
        refine not_infix_of_mem_splitOn (s := s) nonempty ?_
        rw [← map_text_placed (byteLength separator) 0 (splitOn separator s)]
        exact List.mem_map_of_mem member

theorem located_by_occurrences_overlapping :
    ∃ s token : Text, s = "あ「いああああ」い".toList ∧ token = "ああ".toList ∧ token ≠ [] ∧
      furthestRight? id s [token, "ああ」".toList] =
        some (token, ⟨"あ「いああ".toList, token, "」い".toList⟩) ∧
      Foremost id s [token, "ああ」".toList] token 15 ∧
      IsGreatest (occurrences token s) 15 ∧
      runAtLast token s = 2 ∧
      (∃ before after, s = before ++ copies 2 token ++ after ∧ ¬ token <:+ before ∧
        IsGreatest (occurrences token s) (byteLength before + 1 * 6)) ∧
      enclosedByLast? token token s = some ⟨"あ「い".toList, token, [], token, "」い".toList⟩ ∧
      IsGreatest {p | p ∈ occurrences token s ∧ p + 6 ≤ 15} 9 ∧
      slice? 15 21 s = some token ∧
      pieces token s = [⟨0, "あ「い".toList⟩, ⟨15, []⟩, ⟨21, "」い".toList⟩] ∧
      slice? 21 27 s = some "」い".toList ∧
      IsLeast {k | k ∈ occurrences token s ∧ 0 ≤ k} 9 := by
  obtain ⟨furthest, last, run, enclosed, split⟩ :=
    @located_by_occurrences Text "あ「いああああ」い".toList
  have nonempty : "ああ".toList ≠ [] := by decide
  have chosen : furthestRight? id "あ「いああああ」い".toList ["ああ".toList, "ああ」".toList] =
      some ("ああ".toList, ⟨"あ「いああ".toList, "ああ".toList, "」い".toList⟩) := by decide +kernel
  have cut : cutLast? "ああ".toList "あ「いああああ」い".toList =
      some ⟨"あ「いああ".toList, "ああ".toList, "」い".toList⟩ := by decide +kernel
  have count : runAtLast "ああ".toList "あ「いああああ」い".toList = 2 := by decide +kernel
  have found : enclosedByLast? "ああ".toList "ああ".toList "あ「いああああ」い".toList =
      some ⟨"あ「い".toList, "ああ".toList, [], "ああ".toList, "」い".toList⟩ := by decide +kernel
  have parts : pieces "ああ".toList "あ「いああああ」い".toList =
      [⟨0, "あ「い".toList⟩, ⟨15, []⟩, ⟨21, "」い".toList⟩] := by decide +kernel
  obtain ⟨_, _, foremost⟩ := ((furthest id _ (by decide)).2 _ _).mp chosen
  obtain ⟨_, _, greatest⟩ := ((last _ nonempty).2 _).mp cut
  have counted := ((run _ nonempty).2 1).mp count
  obtain ⟨_, _, slices, _, nearest⟩ := (enclosed _ _ nonempty nonempty).2 _ found
  obtain ⟨_, _, placed, chain⟩ := split _ nonempty
  rw [parts] at placed chain
  obtain ⟨first, _⟩ := List.isChain_cons_cons.mp chain
  exact ⟨_, _, rfl, rfl, nonempty, chosen, foremost, greatest, count, counted, found, nearest,
    slices.closing, parts, (placed ⟨21, "」い".toList⟩ (by decide)).1, first.1⟩

end SignalBox.Text
