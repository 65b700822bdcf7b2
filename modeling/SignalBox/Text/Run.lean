import SignalBox.Text.Locate

/-! Runs: a unit written several times without a gap. A run counts as maximal when no further copy
of its unit stands directly before or after it. -/

namespace SignalBox.Text

def copies (n : Nat) (unit : Text) : Text :=
  (List.replicate n unit).flatten

def leadingCopies (unit s : Text) : Nat :=
  match dropStart? unit s with
  | none => 0
  | some rest => if rest.length < s.length then leadingCopies unit rest + 1 else 0
termination_by s.length

def trailingCopies (unit s : Text) : Nat :=
  leadingCopies unit.reverse s.reverse

/-- The number of copies of a unit that end where its last occurrence ends. -/
def runAtLast (unit s : Text) : Nat :=
  match cutLast? unit s with
  | none => 0
  | some x => trailingCopies unit x.before + 1

theorem length_before_of_cutLast? {token s : Text} {x : Split} (h : cutLast? token s = some x) :
    x.before.length < s.length := by
  obtain ⟨ht, hs⟩ := cutLast?_parts h
  have := List.length_pos_iff.mpr (token_ne_nil_of_cutLast? h)
  rw [hs, Split.text, ht]
  simp only [List.length_append]
  omega

/-- The last maximal run of exactly `n` units that starts in `front`, in the text `front ++ back`:
what stands before it and what stands after it. A longer run is passed over as a whole. -/
def openingRun? (unit : Text) (n : Nat) (front back : Text) : Option (Text × Text) :=
  match h : cutLast? (copies n unit) front with
  | none => none
  | some x =>
      have := length_before_of_cutLast? h
      let back := x.after ++ back
      let extra := trailingCopies unit x.before
      if extra = 0 ∧ leadingCopies unit back = 0 then some (x.before, back)
      else
        let kept := x.before.length - extra * unit.length
        openingRun? unit n (x.before.take kept) (x.before.drop kept ++ x.token ++ back)
termination_by front.length
decreasing_by
  simp only [List.length_take]
  omega

def enclosedByRun? (opening closing : Text) (n : Nat) (s : Text) : Option Enclosure := do
  let outer ← cutLast? (copies n closing) s
  let (before, between) ← openingRun? opening n outer.before []
  some ⟨before, copies n opening, between, copies n closing, outer.after⟩

@[simp] theorem copies_zero (unit : Text) : copies 0 unit = [] := rfl

theorem copies_succ (n : Nat) (unit : Text) : copies (n + 1) unit = unit ++ copies n unit := by
  simp [copies, List.replicate_succ]

theorem copies_succ' (n : Nat) (unit : Text) : copies (n + 1) unit = copies n unit ++ unit := by
  simp [copies, List.replicate_succ']

theorem reverse_copies (n : Nat) (unit : Text) :
    (copies n unit).reverse = copies n unit.reverse := by
  induction n with
  | zero => rfl
  | succ n ih => rw [copies_succ, List.reverse_append, ih, copies_succ']

theorem copies_singleton (n : Nat) (c : Char) : copies n [c] = List.replicate n c := by
  simp [copies]

theorem length_copies (n : Nat) (unit : Text) : (copies n unit).length = n * unit.length := by
  simp [copies]

theorem copies_ne_nil_iff {n : Nat} {unit : Text} (nonempty : unit ≠ []) :
    copies n unit ≠ [] ↔ 0 < n := by
  rw [← List.length_pos_iff, length_copies,
    Nat.mul_pos_iff_of_pos_right (List.length_pos_iff.mpr nonempty)]

theorem byteLength_copies (n : Nat) (unit : Text) :
    byteLength (copies n unit) = n * byteLength unit := by
  induction n with
  | zero => simp
  | succ n ih => rw [copies_succ, byteLength_append, ih, Nat.succ_mul, Nat.add_comm]

theorem byteLength_replicate (n : Nat) (c : Char) :
    byteLength (List.replicate n c) = n * c.utf8Size := by
  rw [← copies_singleton, byteLength_copies]
  rfl

theorem take_append_drop_of_cutLast? {token front : Text} {x : Split}
    (found : cutLast? token front = some x) (kept : Nat) (back : Text) :
    x.before.take kept ++ (x.before.drop kept ++ x.token ++ (x.after ++ back)) = front ++ back := by
  rw [(cutLast?_parts found).2, Split.text]
  simp only [List.append_assoc, ← List.append_assoc (List.take _ _) (List.drop _ _),
    List.take_append_drop]

theorem openingRun?_parts {unit front back before between : Text} {n : Nat}
    (h : openingRun? unit n front back = some (before, between)) :
    front ++ back = before ++ copies n unit ++ between := by
  fun_induction openingRun? unit n front back with
  | case1 => contradiction
  | case2 front back x hx _ back' _ _ =>
      obtain ⟨hbefore, hbetween⟩ := Prod.mk.inj (Option.some.inj h)
      obtain ⟨ht, hs⟩ := cutLast?_parts hx
      rw [hs, Split.text, ht, ← hbefore, ← hbetween]
      simp only [back', List.append_assoc]
  | case3 front back x hx _ back' _ _ kept ih =>
      exact (take_append_drop_of_cutLast? hx kept back).symm.trans (ih h)

theorem enclosedByRun?_of_cutLast? {opening closing s : Text} {n : Nat} {outer : Split}
    (last : cutLast? (copies n closing) s = some outer) :
    enclosedByRun? opening closing n s =
      (openingRun? opening n outer.before []).map fun (before, between) =>
        ⟨before, copies n opening, between, copies n closing, outer.after⟩ := by
  rw [enclosedByRun?, last]
  simp only [Option.bind_eq_bind, Option.bind_some]
  cases openingRun? opening n outer.before [] <;> rfl

theorem enclosedByRun?_eq_some_iff {opening closing s : Text} {n : Nat} {x : Enclosure} :
    enclosedByRun? opening closing n s = some x ↔
      x.opening = copies n opening ∧ x.closing = copies n closing ∧
        cutLast? (copies n closing) s =
          some ⟨x.before ++ x.opening ++ x.between, x.closing, x.after⟩ ∧
        openingRun? opening n (x.before ++ x.opening ++ x.between) [] =
          some (x.before, x.between) := by
  simp only [enclosedByRun?, Option.bind_eq_bind, Option.bind_eq_some_iff, Option.some.injEq]
  constructor
  · rintro ⟨outer, last, ⟨before, between⟩, nearest, rfl⟩
    have front := openingRun?_parts nearest
    rw [List.append_nil] at front
    exact ⟨rfl, rfl, by rw [last, ← front, ← (cutLast?_parts last).1], by rw [← front, nearest]⟩
  · rintro ⟨same, sameToo, last, nearest⟩
    exact ⟨_, last, _, nearest, by rw [← same, ← sameToo]⟩

theorem enclosedByRun?_parts {opening closing s : Text} {n : Nat} {x : Enclosure}
    (h : enclosedByRun? opening closing n s = some x) :
    x.opening = copies n opening ∧ x.closing = copies n closing ∧ s = x.text := by
  obtain ⟨same, sameToo, last, _⟩ := enclosedByRun?_eq_some_iff.mp h
  exact ⟨same, sameToo, (cutLast?_parts last).2⟩

section

variable {unit s rest : Text}

theorem leadingCopies_append (nonempty : unit ≠ []) (s : Text) :
    ∃ rest, s = copies (leadingCopies unit s) unit ++ rest ∧ ¬ unit <+: rest := by
  fun_induction leadingCopies unit s with
  | case1 s none => exact ⟨s, rfl, dropStart?_eq_none_iff.mp none⟩
  | case2 s rest found _ ih =>
      obtain ⟨last, parts, absent⟩ := ih
      refine ⟨last, ?_, absent⟩
      rw [copies_succ, List.append_assoc, ← parts]
      exact dropStart?_eq_some_iff.mp found
  | case3 s rest found longer =>
      have positive := List.length_pos_iff.mpr nonempty
      rw [dropStart?_eq_some_iff.mp found, List.length_append] at longer
      omega

theorem leadingCopies_copies_append (nonempty : unit ≠ []) (absent : ¬ unit <+: rest) (n : Nat) :
    leadingCopies unit (copies n unit ++ rest) = n := by
  induction n with
  | zero =>
      rw [copies_zero, List.nil_append, leadingCopies, dropStart?_eq_none_iff.mpr absent]
  | succ n ih =>
      have found : dropStart? unit (copies (n + 1) unit ++ rest) =
          some (copies n unit ++ rest) := by
        rw [dropStart?_eq_some_iff, copies_succ, List.append_assoc]
      have positive := List.length_pos_iff.mpr nonempty
      rw [leadingCopies, found]
      dsimp only
      rw [if_pos, ih]
      simp only [copies_succ, List.append_assoc, List.length_append]
      omega

theorem leadingCopies_eq_zero_iff (nonempty : unit ≠ []) :
    leadingCopies unit s = 0 ↔ ¬ unit <+: s := by
  constructor
  · intro zero
    obtain ⟨rest, parts, absent⟩ := leadingCopies_append nonempty s
    rw [zero, copies_zero, List.nil_append] at parts
    rwa [parts]
  · intro absent
    exact leadingCopies_copies_append nonempty absent 0

theorem trailingCopies_append (nonempty : unit ≠ []) (s : Text) :
    ∃ rest, s = rest ++ copies (trailingCopies unit s) unit ∧ ¬ unit <:+ rest := by
  obtain ⟨rest, parts, absent⟩ :=
    leadingCopies_append (mt List.reverse_eq_nil_iff.mp nonempty) s.reverse
  refine ⟨rest.reverse, ?_, ?_⟩
  · simpa [trailingCopies, reverse_copies] using congrArg List.reverse parts
  · rwa [← List.reverse_prefix, List.reverse_reverse]

theorem trailingCopies_append_copies (nonempty : unit ≠ []) (absent : ¬ unit <:+ rest) (n : Nat) :
    trailingCopies unit (rest ++ copies n unit) = n := by
  rw [trailingCopies, List.reverse_append, reverse_copies]
  exact leadingCopies_copies_append (mt List.reverse_eq_nil_iff.mp nonempty)
    (by rwa [List.reverse_prefix]) n

theorem trailingCopies_eq_zero_iff (nonempty : unit ≠ []) :
    trailingCopies unit s = 0 ↔ ¬ unit <:+ s := by
  rw [trailingCopies, leadingCopies_eq_zero_iff (mt List.reverse_eq_nil_iff.mp nonempty),
    List.reverse_prefix]

end

theorem leadingCopies_singleton_append (c : Char) (s : Text) :
    ∃ rest, s = List.replicate (leadingCopies [c] s) c ++ rest ∧ leadingCopies [c] rest = 0 := by
  have nonempty : [c] ≠ [] := List.cons_ne_nil _ _
  obtain ⟨rest, parts, absent⟩ := leadingCopies_append nonempty s
  exact ⟨rest, copies_singleton _ c ▸ parts, (leadingCopies_eq_zero_iff nonempty).mpr absent⟩

theorem trailingCopies_singleton_append (c : Char) (s : Text) :
    ∃ rest, s = rest ++ List.replicate (trailingCopies [c] s) c ∧
      trailingCopies [c] rest = 0 := by
  have nonempty : [c] ≠ [] := List.cons_ne_nil _ _
  obtain ⟨rest, parts, absent⟩ := trailingCopies_append nonempty s
  exact ⟨rest, copies_singleton _ c ▸ parts, (trailingCopies_eq_zero_iff nonempty).mpr absent⟩

theorem leadingCopies_singleton_eq_zero {c : Char} {s : Text} (h : c ∉ s) :
    leadingCopies [c] s = 0 := by
  rw [leadingCopies_eq_zero_iff (List.cons_ne_nil _ _)]
  exact fun starts => h (starts.subset (List.mem_singleton_self c))

theorem runAtLast_singleton {c : Char} {s : Text} (h : c ∈ s) :
    ∃ before after, s = before ++ List.replicate (runAtLast [c] s) c ++ after ∧ c ∉ after ∧
      trailingCopies [c] before = 0 ∧ 0 < runAtLast [c] s := by
  obtain ⟨pre, post, split⟩ := List.append_of_mem h
  cases hlast : cutLast? [c] s with
  | none =>
      exact absurd ⟨pre, post, by rw [split]; simp⟩ ((cutLast?_eq_none_iff (by simp)).mp hlast)
  | some x =>
      obtain ⟨token, text⟩ := cutLast?_parts hlast
      obtain ⟨before, run, maximal⟩ := trailingCopies_singleton_append c x.before
      have count : runAtLast [c] s = trailingCopies [c] x.before + 1 := by
        rw [runAtLast, hlast]
      refine ⟨before, x.after, ?_, ?_, maximal, by omega⟩
      · rw [count, List.replicate_succ', ← List.append_assoc, ← run, ← token]
        exact text
      · intro again
        obtain ⟨pre, post, split⟩ := List.append_of_mem again
        have late := cutLast?_last hlast (x.before ++ [c] ++ pre) post
          (by rw [text, Split.text, token, split]; simp)
        simp only [List.length_append, List.length_cons, List.length_nil] at late
        omega

theorem cutLast?_copies_singleton {c : Char} {n : Nat} {before after : Text} (positive : 0 < n)
    (last : c ∉ after) :
    cutLast? (copies n [c]) (before ++ List.replicate n c ++ after) =
      some ⟨before, copies n [c], after⟩ := by
  rw [cutLast?_eq_some_iff]
  refine ⟨(copies_ne_nil_iff (List.cons_ne_nil _ _)).mpr positive, rfl, ?_, ?_⟩
  · rw [Split.text, copies_singleton]
  · intro b a split
    rw [copies_singleton] at split
    apply Classical.byContradiction
    intro late
    simp only [Nat.not_le] at late
    have inRun : (b ++ List.replicate n c ++ a)[b.length + n - 1]? = some c := by
      rw [List.getElem?_append_left (by simp; omega), List.getElem?_append_right (by omega),
        List.getElem?_replicate, if_pos (by omega)]
    rw [← split, List.getElem?_append_right (by simp; omega)] at inRun
    exact last (List.mem_of_getElem? inRun)

theorem openingRun?_singleton {c : Char} {n : Nat} {before after : Text} (positive : 0 < n)
    (maximal : trailingCopies [c] before = 0) (last : c ∉ after) :
    openingRun? [c] n (before ++ List.replicate n c ++ after) [] = some (before, after) := by
  have found : cutLast? (copies n [c]) (before ++ List.replicate n c ++ after) =
      some ⟨before, copies n [c], after⟩ := cutLast?_copies_singleton positive last
  rw [openingRun?]
  split
  · next none => rw [found] at none; contradiction
  · next x hx =>
      rw [found] at hx
      cases hx
      simp [maximal, leadingCopies_singleton_eq_zero last]

end SignalBox.Text
