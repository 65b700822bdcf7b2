import Mathlib.Data.List.Infix
import SignalBox.Proofs.Text.Runs
import SignalBox.Proofs.Text.SplitOn

/-! Texts that differ in the number of spaces alone: the stretches between the spaces are the same.
Where the one is cut at a token without a space, the other can be cut so too. -/

namespace SignalBox.Text

variable {c : Char} {s t x y p q token : Text} {n : Nat}

/-- The parts of a text between its spaces. -/
def stretches (s : Text) : List Text :=
  (splitOn [' '] s).filter (· ≠ [])

/-- The same text with one space between any two stretches and none around them. -/
def respaced (s : Text) : Text :=
  [' '].intercalate (stretches s)

/-! A run of spaces made one. This keeps more than the stretches: whether a text starts or ends with
a space. -/

def squeeze : Text → Text
  | [] => []
  | c :: s => if c = ' ' ∧ s.head? = some ' ' then squeeze s else c :: squeeze s

theorem squeeze_cons (kept : ¬ (c = ' ' ∧ s.head? = some ' ')) :
    squeeze (c :: s) = c :: squeeze s :=
  if_neg kept

theorem squeeze_cons_of_ne (inked : c ≠ ' ') : squeeze (c :: s) = c :: squeeze s :=
  squeeze_cons fun dropped => inked dropped.1

theorem squeeze_space_cons (starts : s.head? = some ' ') : squeeze (' ' :: s) = squeeze s :=
  if_pos ⟨rfl, starts⟩

theorem squeeze_spaceless_append (spaceless : ' ' ∉ x) (y : Text) :
    squeeze (x ++ y) = x ++ squeeze y := by
  induction x with
  | nil => rfl
  | cons c x ih =>
      rw [List.mem_cons, not_or] at spaceless
      rw [List.cons_append, squeeze_cons_of_ne (Ne.symm spaceless.1), ih spaceless.2]
      rfl

theorem squeeze_append_cons (inked : c ≠ ' ') :
    squeeze (x ++ c :: y) = squeeze x ++ c :: squeeze y := by
  induction x with
  | nil => exact squeeze_cons_of_ne inked
  | cons d x ih =>
      have head : (x ++ c :: y).head? = some ' ' ↔ x.head? = some ' ' := by
        cases x <;> simp [inked]
      rw [List.cons_append, squeeze, squeeze, ih]
      simp only [head]
      split <;> rfl

theorem head?_squeeze (s : Text) : (squeeze s).head? = s.head? := by
  induction s with
  | nil => rfl
  | cons c s ih =>
      rw [squeeze]
      split
      · next dropped => rw [ih, dropped.1, dropped.2, List.head?_cons]
      · rfl

theorem getLast?_squeeze (s : Text) : (squeeze s).getLast? = s.getLast? := by
  induction s with
  | nil => rfl
  | cons c s ih =>
      rw [squeeze]
      split
      · next dropped =>
          obtain ⟨rest, rfl⟩ := List.head?_eq_some_iff.mp dropped.2
          rw [ih, List.getLast?_cons_cons]
      · rw [List.getLast?_cons, List.getLast?_cons, ih]

theorem squeeze_eq_nil (empty : squeeze s = []) : s = [] := by
  rw [← List.head?_eq_none_iff, ← head?_squeeze, empty]
  rfl

theorem exists_of_squeeze_eq_cons (inked : c ≠ ' ') (squeezed : squeeze s = p ++ c :: q) :
    ∃ x y, s = x ++ c :: y ∧ squeeze x = p ∧ squeeze y = q := by
  induction s generalizing p with
  | nil => simp [squeeze] at squeezed
  | cons d s ih =>
      by_cases dropped : d = ' ' ∧ s.head? = some ' '
      · obtain ⟨rfl, starts⟩ := dropped
        rw [squeeze_space_cons starts] at squeezed
        obtain ⟨x, y, rfl, rfl, rfl⟩ := ih squeezed
        refine ⟨' ' :: x, y, rfl, ?_, rfl⟩
        cases x with
        | nil =>
            cases starts
            contradiction
        | cons e x => exact squeeze_space_cons starts
      · rw [squeeze_cons dropped] at squeezed
        cases p with
        | nil =>
            cases squeezed
            exact ⟨[], s, rfl, rfl, rfl⟩
        | cons e p =>
            obtain ⟨rfl, later⟩ := List.cons.inj squeezed
            obtain ⟨x, y, rfl, rfl, rfl⟩ := ih later
            refine ⟨d :: x, y, rfl, squeeze_cons ?_, rfl⟩
            rintro ⟨space, starts⟩
            refine dropped ⟨space, ?_⟩
            rw [List.head?_append, starts]
            rfl

theorem exists_of_squeeze_eq (nonempty : token ≠ []) (spaceless : ' ' ∉ token)
    (squeezed : squeeze s = p ++ token ++ q) :
    ∃ x y, s = x ++ token ++ y ∧ squeeze x = p ∧ squeeze y = q := by
  induction token generalizing s p with
  | nil => contradiction
  | cons c token ih =>
      rw [List.mem_cons, not_or] at spaceless
      rw [List.append_assoc, List.cons_append] at squeezed
      obtain ⟨x, y, rfl, rfl, rest⟩ := exists_of_squeeze_eq_cons (Ne.symm spaceless.1) squeezed
      by_cases whole : token = []
      · subst whole
        exact ⟨x, y, by simp, rfl, rest⟩
      · obtain ⟨none, z, rfl, empty, rfl⟩ := ih (p := []) whole spaceless.2 rest
        cases squeeze_eq_nil empty
        exact ⟨x, z, by simp, rfl, rfl⟩

theorem stretches_of_not_mem (spaceless : ' ' ∉ s) :
    stretches s = if s = [] then [] else [s] := by
  rw [stretches, splitOn_singleton_of_not_mem spaceless]
  split
  · next empty => rw [empty]; rfl
  · next inked => exact List.filter_cons_of_pos (decide_eq_true inked)

theorem stretches_nil : stretches [] = [] :=
  stretches_of_not_mem List.not_mem_nil

theorem stretches_append_cons (x y : Text) :
    stretches (x ++ ' ' :: y) = stretches x ++ stretches y := by
  rw [stretches, splitOn_singleton_append, List.filter_append]
  rfl

theorem stretches_space_cons (s : Text) : stretches (' ' :: s) = stretches s := by
  have front := stretches_append_cons [] s
  rwa [stretches_nil] at front

theorem stretches_append_space (s : Text) : stretches (s ++ [' ']) = stretches s := by
  rw [stretches_append_cons, stretches_nil, List.append_nil]

theorem stretches_append (starts : y.head? = some ' ') :
    stretches (x ++ y) = stretches x ++ stretches y := by
  obtain ⟨rest, rfl⟩ := List.head?_eq_some_iff.mp starts
  rw [stretches_append_cons, stretches_space_cons]

@[elab_as_elim]
theorem space_induction {motive : Text → Prop} (word : ∀ x, ' ' ∉ x → motive x)
    (gap : ∀ x y, ' ' ∉ x → motive y → motive (x ++ ' ' :: y)) (s : Text) : motive s := by
  generalize size : s.length = n
  induction n using Nat.strongRecOn generalizing s with
  | ind n ih =>
      by_cases spaced : ' ' ∈ s
      · obtain ⟨x, y, rfl, first⟩ := List.eq_append_cons_of_mem spaced
        refine gap x y first (ih y.length ?_ y rfl)
        rw [← size, List.length_append, List.length_cons]
        omega
      · exact word s spaced

theorem stretches_squeeze (s : Text) : stretches (squeeze s) = stretches s := by
  induction s using space_induction with
  | word x spaceless =>
      have same := squeeze_spaceless_append spaceless []
      rw [List.append_nil] at same
      rw [same, squeeze, List.append_nil]
  | gap x y spaceless ih =>
      have starts : (squeeze (' ' :: y)).head? = some ' ' := head?_squeeze _
      have behind : stretches (squeeze (' ' :: y)) = stretches y := by
        rw [squeeze]
        split
        · exact ih
        · rw [stretches_space_cons, ih]
      rw [squeeze_spaceless_append spaceless, stretches_append starts, behind,
        stretches_append_cons]

theorem squeeze_space_word (spaceless : ' ' ∉ x) (inked : x ≠ []) (y : Text) :
    squeeze (' ' :: x ++ y) = ' ' :: x ++ squeeze y := by
  obtain ⟨c, x, rfl⟩ := List.exists_cons_of_ne_nil inked
  have kept : ¬ (' ' = ' ' ∧ (c :: x ++ y).head? = some ' ') := by
    rintro ⟨_, starts⟩
    cases starts
    exact spaceless List.mem_cons_self
  rw [List.cons_append, squeeze_cons kept, squeeze_spaceless_append spaceless]
  rfl

theorem squeeze_between_spaces (s : Text) :
    squeeze (' ' :: s ++ [' ']) = ' ' :: (stretches s).flatMap (· ++ [' ']) := by
  induction s using space_induction with
  | word x spaceless =>
      rw [stretches_of_not_mem spaceless]
      split
      · next empty => rw [empty]; rfl
      · next inked => rw [squeeze_space_word spaceless inked]; simp [squeeze]
  | gap x y spaceless ih =>
      rw [stretches_append_cons, stretches_of_not_mem spaceless, ← List.cons_append,
        List.append_assoc]
      split
      · next empty => rw [empty]; exact ih
      · next inked =>
          rw [squeeze_space_word spaceless inked, ih]
          simp

theorem stretches_respaced (s : Text) : stretches (respaced s) = stretches s := by
  have spaceless : ∀ w, w ∈ stretches s → ¬ [' '] <:+: w := fun w member =>
    not_infix_of_mem_splitOn (List.cons_ne_nil _ _) (List.mem_of_mem_filter member)
  have inked : ∀ w, w ∈ stretches s → decide (w ≠ []) = true := fun w =>
    List.of_mem_filter
  rw [respaced]
  generalize stretches s = words at spaceless inked
  cases words with
  | nil => exact stretches_nil
  | cons first rest =>
      rw [stretches, splitOn_intercalate rfl (by simp) spaceless, List.filter_eq_self]
      exact inked

theorem stretches_eq_of_squeeze (same : squeeze s = squeeze t) : stretches s = stretches t := by
  rw [← stretches_squeeze s, same, stretches_squeeze]

theorem squeeze_append_token (nonempty : token ≠ []) (spaceless : ' ' ∉ token) (x y : Text) :
    squeeze (x ++ token ++ y) = squeeze x ++ token ++ squeeze y := by
  obtain ⟨c, rest, rfl⟩ := List.exists_cons_of_ne_nil nonempty
  rw [List.mem_cons, not_or] at spaceless
  rw [List.append_assoc, List.cons_append, squeeze_append_cons (Ne.symm spaceless.1),
    squeeze_spaceless_append spaceless.2, List.append_assoc]
  rfl

theorem exists_cut_of_squeeze (nonempty : token ≠ []) (spaceless : ' ' ∉ token)
    (same : squeeze (x ++ token ++ y) = squeeze t) :
    ∃ front back, t = front ++ token ++ back ∧ squeeze x = squeeze front ∧
      squeeze y = squeeze back := by
  rw [squeeze_append_token nonempty spaceless] at same
  obtain ⟨front, back, rfl, first, second⟩ := exists_of_squeeze_eq nonempty spaceless same.symm
  exact ⟨front, back, rfl, first.symm, second.symm⟩

theorem exists_cut_of_stretches (nonempty : token ≠ []) (spaceless : ' ' ∉ token)
    (same : stretches (x ++ token ++ y) = stretches t) :
    ∃ front back, t = front ++ token ++ back ∧
      squeeze (' ' :: x) = squeeze (' ' :: front) ∧ stretches y = stretches back := by
  -- Between two spaces the texts squeeze to one text, so the token stands in both.
  have between : squeeze (' ' :: x ++ token ++ (y ++ [' '])) = squeeze (' ' :: t ++ [' ']) := by
    rw [squeeze_between_spaces t, ← same, ← squeeze_between_spaces]
    simp only [List.append_assoc, List.cons_append]
  obtain ⟨before, after, whole, first, second⟩ :=
    exists_cut_of_squeeze nonempty spaceless between
  have starts : before.head? = some ' ' := by
    rw [← head?_squeeze, ← first, head?_squeeze]
    rfl
  have ends : after.getLast? = some ' ' := by
    rw [← getLast?_squeeze, ← second, getLast?_squeeze, List.getLast?_concat]
  obtain ⟨front, rfl⟩ := List.head?_eq_some_iff.mp starts
  obtain ⟨back, rfl⟩ := List.getLast?_eq_some_iff.mp ends
  refine ⟨front, back, ?_, first, ?_⟩
  · rw [List.cons_append, List.cons_append, List.cons_append, List.cons.injEq,
      ← List.append_assoc] at whole
    exact List.append_cancel_right whole.2
  · rw [← stretches_append_space y, stretches_eq_of_squeeze second, stretches_append_space]

theorem stretches_eq_of_squeeze_space (same : squeeze (' ' :: s) = squeeze (' ' :: t)) :
    stretches s = stretches t := by
  rw [← stretches_space_cons s, stretches_eq_of_squeeze same, stretches_space_cons]

theorem exists_cut (nonempty : token ≠ []) (spaceless : ' ' ∉ token)
    (same : stretches (x ++ token ++ y) = stretches t) :
    ∃ front back, t = front ++ token ++ back ∧ stretches x = stretches front ∧
      stretches y = stretches back := by
  obtain ⟨front, back, whole, first, second⟩ := exists_cut_of_stretches nonempty spaceless same
  exact ⟨front, back, whole, stretches_eq_of_squeeze_space first, second⟩

theorem exists_cut_cons (inked : c ≠ ' ') (same : stretches (x ++ c :: y) = stretches t) :
    ∃ front back, t = front ++ c :: back ∧ stretches x = stretches front ∧
      stretches y = stretches back := by
  rw [List.append_cons] at same
  obtain ⟨front, back, rfl, cut⟩ :=
    exists_cut (List.cons_ne_nil c []) (by simp [inked.symm]) same
  exact ⟨front, back, (List.append_cons ..).symm, cut⟩

section

variable (same : stretches s = stretches t)
include same

theorem infix_of_stretches (nonempty : token ≠ []) (spaceless : ' ' ∉ token)
    (found : token <:+: s) : token <:+: t := by
  obtain ⟨x, y, rfl⟩ := found
  obtain ⟨front, back, rfl, _⟩ := exists_cut nonempty spaceless same
  exact ⟨front, back, rfl⟩

theorem mem_of_stretches (inked : c ≠ ' ') (member : c ∈ s) : c ∈ t := by
  have spaceless : ' ' ∉ [c] := by simp [inked.symm]
  rw [← List.singleton_infix_iff] at member ⊢
  exact infix_of_stretches same (List.cons_ne_nil _ _) spaceless member

theorem isBlank_of_stretches (blank : t.isBlank = true) : s.isBlank = true := by
  rw [isBlank, List.all_eq_true] at blank ⊢
  intro c member
  by_cases space : c = ' '
  · rw [space]
    rfl
  · exact blank c (mem_of_stretches same space member)

theorem splitOn_of_stretches (starts : token.head? = some c) (apart : c ∉ token.tail)
    (spaceless : ' ' ∉ token) :
    List.Forall₂ (fun p q => stretches p = stretches q) (splitOn token s) (splitOn token t) := by
  fun_induction splitOn token s generalizing t with
  | case1 s empty =>
      rw [empty] at starts
      contradiction
  | case2 s nonempty none =>
      have absent : ¬ token <:+: t := by
        intro found
        have inFirst := infix_of_stretches same.symm nonempty spaceless found
        rw [← contains_eq_true_iff nonempty, contains, none] at inFirst
        contradiction
      rw [splitOn_eq_singleton nonempty absent]
      exact .cons same .nil
  | case3 s nonempty x found _ ih =>
      obtain ⟨_, token, text⟩ := cutFirst?_parts found
      rw [text, Split.text, token] at same
      obtain ⟨front, back, rfl, first, second⟩ := exists_cut nonempty spaceless same
      have absent : ¬ _ <:+: front := fun inside =>
        not_infix_before found (infix_of_stretches first.symm nonempty spaceless inside)
      rw [splitOn_append_separator starts apart, splitOn_eq_singleton nonempty absent]
      exact .cons first (ih second)

end

theorem getLast?_space_cons (inked : c ≠ ' ') :
    (' ' :: s).getLast? = some c ↔ s.getLast? = some c := by
  rw [List.getLast?_cons]
  cases s.getLast? <;> simp [inked.symm]

theorem getLast?_eq_some_iff_of_squeeze (inked : c ≠ ' ')
    (same : squeeze (' ' :: s) = squeeze (' ' :: t)) :
    s.getLast? = some c ↔ t.getLast? = some c := by
  rw [← getLast?_space_cons inked, ← getLast?_squeeze, same, getLast?_squeeze,
    getLast?_space_cons inked]

theorem Run.exists_of_squeeze {i : Nat} (run : Run c s i n) (inked : c ≠ ' ')
    (same : squeeze s = squeeze t) : ∃ j, Run c t j n := by
  have positive := run.positive
  obtain ⟨before, after, rfl, rfl⟩ := run.exists_parts
  obtain ⟨front, back, rfl, first, second⟩ := exists_cut_of_squeeze
    (by simp [Nat.ne_of_gt positive]) (by simp [inked.symm]) same
  refine ⟨front.length, run_of_parts positive ?_ ?_⟩
  · rw [← getLast?_squeeze, ← first, getLast?_squeeze]
    exact run.ends
  · rw [← head?_squeeze, ← second, head?_squeeze]
    exact run.starts

theorem LastRun.exists_of_squeeze {before between : Text} (inked : c ≠ ' ')
    (found : LastRun c n s.length s before between)
    (same : squeeze (' ' :: s) = squeeze (' ' :: t)) :
    ∃ front back, LastRun c n t.length t front back ∧ stretches before = stretches front ∧
      stretches between = stretches back := by
  have positive := found.run.positive
  have parts : ' ' :: s = ' ' :: before ++ List.replicate n c ++ between :=
    congrArg (' ' :: ·) found.text
  rw [parts] at same
  obtain ⟨opening, back, whole, first, second⟩ := exists_cut_of_squeeze
    (by simp [Nat.ne_of_gt positive]) (by simp [inked.symm]) same
  have starts : opening.head? = some ' ' := by
    rw [← head?_squeeze, ← first, head?_squeeze]
    rfl
  obtain ⟨front, rfl⟩ := List.head?_eq_some_iff.mp starts
  obtain ⟨_, rfl⟩ := List.cons.inj whole
  refine ⟨front, back, lastRun_of_parts positive ?_ ?_ ?_, stretches_eq_of_squeeze_space first,
    stretches_eq_of_squeeze second⟩
  · exact mt (getLast?_eq_some_iff_of_squeeze inked first).mpr found.ends
  · rw [← head?_squeeze, ← second, head?_squeeze]
    exact found.starts
  · intro i run
    obtain ⟨j, later⟩ := run.exists_of_squeeze inked second.symm
    exact found.not_later j later

end SignalBox.Text
