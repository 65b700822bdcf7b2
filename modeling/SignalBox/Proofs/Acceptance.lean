import SignalBox.Proofs.Limit
import SignalBox.Proofs.Formula.Operand
import SignalBox.Proofs.Step
import SignalBox.Proofs.Text.SplitOn

/-! Which formulas of groups and partial locks can be read. Every closing brace needs an opening one
since the closing brace before it; every closing angle needs one in the same way, in the word that
the braces, the alternatives and the spaces leave it in. An opening that no closing asks for is a
character like any other. -/

namespace SignalBox

namespace Text

/-- Between a closing and the closing before it, or the start, stands an opening. -/
def Opened (opening closing : Char) (s : Text) : Prop :=
  ∀ before after, s = before ++ closing :: after →
    ∃ front back, before = front ++ opening :: back ∧ closing ∉ back

variable {opening closing : Char} {before between after front back s x y : Text}

theorem opened_of_not_mem (absent : closing ∉ s) : Opened opening closing s := by
  rintro before after rfl
  exact absurd (by simp) absent

theorem Opened.mem (opened : Opened opening closing s) (member : closing ∈ s) : opening ∈ s := by
  obtain ⟨before, after, rfl⟩ := List.append_of_mem member
  obtain ⟨front, back, rfl, _⟩ := opened before after rfl
  simp

theorem opened_iff_not_mem (absent : opening ∉ s) : Opened opening closing s ↔ closing ∉ s :=
  ⟨fun opened member => absent (opened.mem member), opened_of_not_mem⟩

theorem exists_of_append_eq (parts : x ++ y = before ++ closing :: after) (absent : closing ∉ y) :
    ∃ rest, x = before ++ closing :: rest := by
  rcases List.append_eq_append_iff.mp parts with ⟨more, _, inside⟩ | ⟨more, whole, inside⟩
  · exact absurd (inside ▸ by simp) absent
  · cases more with
    | nil => exact absurd (by rw [← List.nil_append y, ← inside]; simp) absent
    | cons d more =>
        cases inside
        exact ⟨more, whole⟩

theorem opened_append_iff (absent : closing ∉ y) :
    Opened opening closing (x ++ y) ↔ Opened opening closing x := by
  constructor
  · rintro opened before after rfl
    exact opened before (after ++ y) (by simp)
  · intro opened before after parts
    obtain ⟨rest, first⟩ := exists_of_append_eq parts absent
    exact opened before rest first

theorem opened_closing_iff (last : closing ∉ y) :
    Opened opening closing (x ++ closing :: y) ↔ Opened opening closing x ∧
      ∃ front back, x = front ++ opening :: back ∧ closing ∉ back := by
  rw [List.append_cons, opened_append_iff last]
  constructor
  · intro opened
    refine ⟨?_, opened x [] rfl⟩
    rintro before after rfl
    exact opened before (after ++ [closing]) (by simp)
  · rintro ⟨opened, here⟩ before after parts
    rcases List.eq_nil_or_concat after with rfl | ⟨rest, d, rfl⟩
    · rw [List.append_inj_left' parts rfl] at here
      exact here
    · rw [List.concat_eq_append, ← List.cons_append, ← List.append_assoc] at parts
      exact opened before rest (List.append_inj_left' parts rfl)

theorem subset_of_last (parts : before ++ opening :: between = front ++ opening :: back)
    (last : opening ∉ between) : between ⊆ back := by
  rcases List.append_eq_append_iff.mp parts with ⟨more, _, inside⟩ | ⟨more, _, inside⟩
  · cases more with
    | nil =>
        cases inside
        exact List.Subset.refl _
    | cons d more =>
        cases inside
        exact absurd (by simp) last
  · cases more with
    | nil =>
        cases inside
        exact List.Subset.refl _
    | cons d more =>
        cases inside
        exact fun e member => by simp [member]

theorem opened_enclosure_iff (apart : opening ≠ closing) (enclosed : opening ∉ between)
    (last : closing ∉ after) :
    Opened opening closing (before ++ opening :: between ++ closing :: after) ↔
      Opened opening closing before ∧ closing ∉ between := by
  rw [opened_closing_iff last]
  constructor
  · rintro ⟨opened, front, back, parts, absent⟩
    have closed : closing ∉ between := fun member => absent (subset_of_last parts enclosed member)
    rw [opened_append_iff (by simp [apart.symm, closed])] at opened
    exact ⟨opened, closed⟩
  · rintro ⟨opened, closed⟩
    rw [opened_append_iff (by simp [apart.symm, closed])]
    exact ⟨opened, before, between, rfl, closed⟩

end Text

namespace Formula

open Text

/-- A text that stands in front of a closing brace, cut at its last opening one. -/
def cutAtOpening (s : Text) : List Text :=
  match cutLast? ['{'] s with
  | some x => [x.before, x.after]
  | none => [s]

/-- What is left when a text is cut at every closing brace and at the last opening one before each.
Behind the last closing brace no opening one is cut at. -/
def braceParts (s : Text) : List Text :=
  (splitOn ['}'] s).dropLast.flatMap cutAtOpening ++ (splitOn ['}'] s).getLast?.toList

def words (s : Text) : List Text :=
  (braceParts s).flatMap fun part =>
    (splitOn alternativeMark part).flatMap (splitOn sequenceMark)

structure Accepted (s : Text) : Prop where
  groups : Opened '{' '}' s
  locks : ∀ word, word ∈ words s → Opened '<' '>' word

section Words

variable {s before between after : Text} {word : Text}

theorem braceParts_of_not_mem (absent : '}' ∉ s) : braceParts s = [s] := by
  rw [braceParts, splitOn_singleton_of_not_mem absent]
  rfl

theorem braceParts_enclosure (enclosed : '{' ∉ between) (closed : '}' ∉ between)
    (last : '}' ∉ after) :
    braceParts (before ++ '{' :: between ++ '}' :: after) =
      braceParts before ++ [between, after] := by
  have inside : '}' ∉ '{' :: between := by simp [closed]
  obtain ⟨earlier, stretch, first, second⟩ := exists_splitOn_append before inside
  have opening : cutAtOpening (stretch ++ '{' :: between) = [stretch, between] := by
    rw [cutAtOpening, cutLast?_singleton enclosed]
  rw [braceParts, splitOn_singleton_append, second, splitOn_singleton_of_not_mem last,
    List.dropLast_concat, List.getLast?_concat, List.flatMap_append, List.flatMap_singleton,
    opening, braceParts, first, List.dropLast_concat, List.getLast?_concat]
  simp

theorem words_of_not_mem (absent : '}' ∉ s) :
    words s = (splitOn alternativeMark s).flatMap (splitOn sequenceMark) := by
  rw [words, braceParts_of_not_mem absent, List.flatMap_singleton]

theorem words_of_single (absent : '}' ∉ s) (single : ¬ alternativeMark <:+: s) :
    words s = splitOn sequenceMark s := by
  rw [words_of_not_mem absent, splitOn_eq_singleton (by simp [alternativeMark]) single,
    List.flatMap_singleton]

theorem words_of_word (word : Word s) : words s = [s] := by
  rw [words_of_single word.group word.single]
  exact splitOn_singleton_of_not_mem word.unspaced

theorem words_enclosure (enclosed : '{' ∉ between) (closed : '}' ∉ between)
    (last : '}' ∉ after) :
    words (before ++ '{' :: between ++ '}' :: after) =
      words before ++ (words between ++ words after) := by
  rw [words, braceParts_enclosure enclosed closed last, List.flatMap_append, List.flatMap_cons,
    List.flatMap_singleton, words_of_not_mem closed, words_of_not_mem last]
  rfl

theorem infix_of_mem_words (absent : '}' ∉ s) (member : word ∈ words s) : word <:+: s := by
  rw [words_of_not_mem absent] at member
  obtain ⟨piece, split, inside⟩ := List.mem_flatMap.mp member
  exact (infix_of_mem_splitOn (by simp [sequenceMark]) inside).trans
    (infix_of_mem_splitOn (by simp [alternativeMark]) split)

theorem accepted_of_not_mem (unclosed : '}' ∉ s) (unlocked : '>' ∉ s) : Accepted s where
  groups := opened_of_not_mem unclosed
  locks _ member := opened_of_not_mem
    fun found => unlocked ((infix_of_mem_words unclosed member).subset found)

theorem accepted_enclosure_iff (enclosed : '{' ∉ between) (last : '}' ∉ after) :
    Accepted (before ++ '{' :: between ++ '}' :: after) ↔
      Accepted before ∧ Accepted between ∧ Accepted after := by
  constructor
  · rintro ⟨groups, locks⟩
    obtain ⟨opened, closed⟩ := (opened_enclosure_iff (by decide) enclosed last).mp groups
    rw [words_enclosure enclosed closed last, List.forall_mem_append,
      List.forall_mem_append] at locks
    exact ⟨⟨opened, locks.1⟩, ⟨opened_of_not_mem closed, locks.2.1⟩,
      ⟨opened_of_not_mem last, locks.2.2⟩⟩
  · rintro ⟨first, second, third⟩
    have closed := (opened_iff_not_mem enclosed).mp second.groups
    refine ⟨(opened_enclosure_iff (by decide) enclosed last).mpr ⟨first.groups, closed⟩, ?_⟩
    rw [words_enclosure enclosed closed last, List.forall_mem_append, List.forall_mem_append]
    exact ⟨first.locks, second.locks, third.locks⟩

theorem accepted_iff_words (absent : '}' ∉ s) :
    Accepted s ↔ ∀ word, word ∈ words s → Opened '<' '>' word :=
  ⟨Accepted.locks, fun locks => ⟨opened_of_not_mem absent, locks⟩⟩

theorem accepted_word_iff (word : Word s) : Accepted s ↔ Opened '<' '>' s := by
  rw [accepted_iff_words word.group, words_of_word word, List.forall_mem_singleton]

theorem accepted_spaced_iff (absent : '}' ∉ s) (single : ¬ alternativeMark <:+: s) :
    Accepted s ↔ ∀ piece, piece ∈ splitOn sequenceMark s → Accepted piece := by
  rw [accepted_iff_words absent, words_of_single absent single]
  refine forall₂_congr fun piece member => ?_
  have inside := infix_of_mem_splitOn (by simp [sequenceMark]) member
  have unclosed : '}' ∉ piece := fun found => absent (inside.subset found)
  have unspaced : ¬ sequenceMark <:+: piece :=
    not_infix_of_mem_splitOn (by simp [sequenceMark]) member
  have whole : ¬ alternativeMark <:+: piece := fun found => single (found.trans inside)
  rw [accepted_iff_words unclosed, words_of_single unclosed whole,
    splitOn_eq_singleton (by simp [sequenceMark]) unspaced, List.forall_mem_singleton]

theorem accepted_choice_iff (absent : '}' ∉ s) :
    Accepted s ↔ ∀ piece, piece ∈ splitOn alternativeMark s → Accepted piece := by
  rw [accepted_iff_words absent, words_of_not_mem absent, List.forall_mem_flatMap]
  refine forall₂_congr fun piece member => ?_
  have inside := infix_of_mem_splitOn (by simp [alternativeMark]) member
  have unclosed : '}' ∉ piece := fun found => absent (inside.subset found)
  have single := not_infix_of_mem_splitOn (by simp [alternativeMark]) member
  rw [accepted_iff_words unclosed, words_of_single unclosed single]

theorem accepted_lock_iff (word : Word (before ++ '<' :: between ++ '>' :: after))
    (enclosed : '<' ∉ between) (last : '>' ∉ after) :
    Accepted (before ++ '<' :: between ++ '>' :: after) ↔
      Accepted before ∧ Accepted between ∧ Accepted after := by
  have first : Word before := word.part ⟨[], '<' :: between ++ '>' :: after, by simp⟩
  have second : Word between := word.part ⟨before ++ ['<'], '>' :: after, by simp⟩
  have third : Word after := word.part ⟨before ++ '<' :: between ++ ['>'], [], by simp⟩
  rw [accepted_word_iff word, accepted_word_iff first, accepted_word_iff second,
    opened_enclosure_iff (by decide) enclosed last, opened_iff_not_mem enclosed]
  exact and_congr_right fun _ => (and_iff_left (accepted_of_not_mem third.group last)).symm

end Words

/-- Without stations, decorations and exceptions. -/
def Plain (s : Text) : Prop :=
  ∀ c, c ∈ ['[', ']', '(', ')', '但'] → c ∉ s

section Plain

variable {s t delimiter : Text} {operands : List Operand} {o : Operand}

theorem Plain.part (plain : Plain s) (part : t <:+: s) : Plain t :=
  fun c listed member => plain c listed (part.subset member)

theorem Plain.not_adjacent (plain : Plain s) : ¬ adjacentMark <:+: s :=
  fun found => plain ')' (by decide) (found.subset (by decide))

theorem Plain.not_accepted (plain : Plain s) (inked : s.isBlank = false)
    (found : cut s = .malformed delimiter) :
    ¬ Accepted s ∧ (delimiter = ['}'] ∨ delimiter = ['>']) := by
  have shape := shape_cut s
  rw [found] at shape
  cases shape with
  | groupUnopened absent undivided =>
      refine ⟨fun accepted => ?_, .inl rfl⟩
      obtain ⟨front, back, rfl, _⟩ := accepted.groups _ _ rfl
      exact absent (by simp)
  | stationUnopened positive =>
      refine absurd ?_ (plain ']' (by decide))
      simp [Nat.ne_of_gt positive]
  | lockUnopened word absent last =>
      refine ⟨fun accepted => ?_, .inr rfl⟩
      obtain ⟨front, back, rfl, _⟩ := (accepted_word_iff word).mp accepted _ _ rfl
      exact absent (by simp)
  | decoratedUnclosed _ _ adjacent => exact absurd adjacent plain.not_adjacent
  | nameless word unlocked alone stripped blank =>
      have named : s ≠ [] := by
        rintro rfl
        contradiction
      have undecorated := Decoration.strip_wrap .plain named (plain '(' (by decide))
      rw [Decoration.wrap, stripped] at undecorated
      cases undecorated
      rw [blank] at inked
      contradiction

theorem accepted_of_name {decoration : Decoration} {token : Text}
    (found : cut s = .name decoration token) : Accepted s := by
  have shape := shape_cut s
  rw [found] at shape
  cases shape with
  | name word unlocked => exact accepted_of_not_mem word.group unlocked

theorem Plain.accepted_sequence_iff (plain : Plain s) (found : cut s = .sequence operands) :
    Accepted s ↔ ∀ o, o ∈ operands → Accepted o.text := by
  have shape := shape_cut s
  rw [found] at shape
  cases shape with
  | group enclosed undivided =>
      rw [accepted_enclosure_iff enclosed undivided.group]
      simp [Operand.ofEnclosure]
  | station positive =>
      refine absurd ?_ (plain ']' (by decide))
      simp [Nat.ne_of_gt positive]
  | words undivided single spaced =>
      rw [accepted_spaced_iff undivided.group single,
        ← map_text_ofPiece sequenceMark s .beside, List.forall_mem_map]
  | lock word enclosed last =>
      rw [accepted_lock_iff word enclosed last]
      simp [Operand.ofEnclosure]
  | decorated _ _ adjacent => exact absurd adjacent plain.not_adjacent

theorem accepted_alternatives_iff (found : cut s = .alternatives operands) :
    Accepted s ↔ ∀ o, o ∈ operands → Accepted o.text := by
  have shape := shape_cut s
  rw [found] at shape
  cases shape with
  | alternatives undivided =>
      rw [accepted_choice_iff undivided.group, ← map_text_ofPiece alternativeMark s .inside,
        List.forall_mem_map]

/-! How deep a formula goes: a group may hold alternatives, an alternative may hold locks, and a
lock holds neither. -/

def reach (s : Text) : Nat :=
  if contains ['{'] s && contains ['}'] s then 3
  else if contains alternativeMark s then 2
  else if contains ['<'] s && contains ['>'] s then 1
  else 0

theorem contains_alternativeMark_iff : contains alternativeMark s = true ↔ alternativeMark <:+: s :=
  contains_eq_true_iff (by simp [alternativeMark])

theorem reach_le_of_infix (inside : t <:+: s) : reach t ≤ reach s := by
  have members : ∀ {c}, c ∈ t → c ∈ s := fun member => inside.subset member
  have marked : alternativeMark <:+: t → alternativeMark <:+: s := fun found => found.trans inside
  grind [reach, contains_singleton_iff, contains_alternativeMark_iff]

theorem reach_le_three (s : Text) : reach s ≤ 3 := by
  grind [reach]

theorem reach_le_two (absent : '{' ∉ s) : reach s ≤ 2 := by
  grind [reach, contains_singleton_iff]

theorem reach_le_one (absent : '}' ∉ s) (single : ¬ alternativeMark <:+: s) : reach s ≤ 1 := by
  grind [reach, contains_singleton_iff, contains_alternativeMark_iff]

theorem reach_eq_zero (word : Word s) (absent : '<' ∉ s) : reach s = 0 := by
  have closed := word.group
  have single := word.single
  grind [reach, contains_singleton_iff, contains_alternativeMark_iff]

theorem reach_group (opened : '{' ∈ s) (closed : '}' ∈ s) : reach s = 3 := by
  grind [reach, contains_singleton_iff]

theorem reach_alternatives (found : alternativeMark <:+: s) : 2 ≤ reach s := by
  grind [reach, contains_alternativeMark_iff]

theorem reach_lock (opened : '<' ∈ s) (closed : '>' ∈ s) : 0 < reach s := by
  grind [reach, contains_singleton_iff]

theorem Plain.level_of_operand (plain : Plain s) (member : o ∈ (cut s).operands) :
    o.place = .beside ∨ o.place = .unlocked ∨ reach o.text < reach s := by
  have shape := shape_cut s
  generalize cut s = c at shape member
  cases shape with
  | @group between after before enclosed undivided =>
      have deep : reach (before ++ '{' :: between ++ '}' :: after) = 3 :=
        reach_group (by simp) (by simp)
      have within := reach_le_two enclosed
      simp only [Operand.ofEnclosure, Cut.operands, List.mem_cons, List.not_mem_nil,
        or_false] at member
      rcases member with rfl | rfl | rfl
      · exact .inl rfl
      · exact .inr (.inr (deep ▸ Nat.lt_succ_of_le within))
      · exact .inl rfl
  | station positive =>
      refine absurd ?_ (plain ']' (by decide))
      simp [Nat.ne_of_gt positive]
  | exception => exact absurd (by simp) (plain '但' (by decide))
  | alternatives undivided found =>
      have deep := reach_alternatives found
      obtain ⟨p, placed, rfl⟩ := List.mem_map.mp member
      have split := Piece.text_mem_of_mem_placed placed
      have part := infix_of_mem_splitOn (by simp [alternativeMark]) split
      have within := reach_le_one (fun found => undivided.group (part.subset found))
        (not_infix_of_mem_splitOn (by simp [alternativeMark]) split)
      exact .inr (.inr (Nat.lt_of_le_of_lt within deep))
  | words =>
      obtain ⟨p, _, rfl⟩ := List.mem_map.mp member
      exact .inl rfl
  | @lock before between after word enclosed last =>
      have deep : 0 < reach (before ++ '<' :: between ++ '>' :: after) :=
        reach_lock (by simp) (by simp)
      have part : Word between := word.part ⟨before ++ ['<'], '>' :: after, by simp⟩
      simp only [Operand.ofEnclosure, Cut.operands, List.mem_cons, List.not_mem_nil,
        or_false] at member
      rcases member with rfl | rfl | rfl
      · exact .inr (.inl rfl)
      · exact .inr (.inr (reach_eq_zero part enclosed ▸ deep))
      · exact .inr (.inl rfl)
  | decorated _ _ adjacent => exact absurd adjacent plain.not_adjacent
  | _ => contradiction

end Plain

end Formula

namespace Reader

open Text Formula Formula.Reading

variable {r : Reader} {context : Context} {s : Text} {o : Operand} {operands : List Operand}
  {outcome : Except Formula.Error (List Condition)} {added : List Diagnostic}

theorem Context.room_of_operand (plain : Plain s) (member : o ∈ (cut s).operands) :
    (context.enter o).depth + reach o.text ≤ context.depth + reach s := by
  have inside := reach_le_of_infix (infix_of_operand member)
  rcases plain.level_of_operand member with level | level | less
  · simpa only [enter, level] using Nat.add_le_add_left inside _
  · simpa only [enter, level] using Nat.add_le_add_left inside _
  · have below := context.depth_enter_le o
    omega

inductive Verdict (accepted : Prop) : Except Formula.Error (List Condition) → Prop
  | accepted (holds : accepted) : Verdict accepted (.ok conditions)
  | refused (fails : ¬ accepted) (blamed : delimiter = ['}'] ∨ delimiter = ['>']) :
      Verdict accepted (.error (.malformed fragment delimiter position))

theorem Verdict.of_iff {p q : Prop} (verdict : Verdict p outcome) (same : q ↔ p) :
    Verdict q outcome := by
  rwa [propext same]

theorem Verdict.map {p : Prop} (verdict : Verdict p outcome)
    (f : List Condition → List Condition) : Verdict p (outcome.map f) := by
  cases verdict with
  | accepted holds => exact .accepted holds
  | refused fails blamed => exact .refused fails blamed

theorem verdict_gathered
    (gathered : Gathered (fun o outcome _ => Verdict (Accepted o.text) outcome) operands
      outcome added) : Verdict (∀ o, o ∈ operands → Accepted o.text) outcome := by
  induction gathered with
  | nil => exact .accepted nofun
  | failed first =>
      cases first with
      | refused fails blamed =>
          exact .refused (fun all => fails (all _ List.mem_cons_self)) blamed
  | cons first later ih =>
      cases first with
      | accepted holds =>
          exact (ih.map _).of_iff (List.forall_mem_cons.trans (and_iff_right holds))

theorem Concludes.verdict (concludes : r.Concludes context s outcome added) (plain : Plain s)
    (room : context.depth + reach s ≤ r.options.depthLimit) : Verdict (Accepted s) outcome := by
  refine concludes.induction (motive := fun context s outcome _ => Plain s →
    context.depth + reach s ≤ r.options.depthLimit → Verdict (Accepted s) outcome) ?_ plain room
  intro context s outcome added step plain room
  have gather : ∀ {operands outcome added}, (∀ o, o ∈ operands → o ∈ (cut s).operands) →
      Gathered (fun o outcome added => r.Concludes (context.enter o) o.text outcome added ∧
        (Plain o.text → (context.enter o).depth + reach o.text ≤ r.options.depthLimit →
          Verdict (Accepted o.text) outcome)) operands outcome added →
      Verdict (∀ o, o ∈ operands → Accepted o.text) outcome := by
    intro operands outcome added cutFrom each
    refine verdict_gathered (each.mono ?_)
    intro o member _ _ held
    have own := cutFrom o member
    exact held.2 (plain.part (infix_of_operand own))
      (Nat.le_trans (Context.room_of_operand plain own) room)
  cases step with
  | blank blank =>
      have absent : ∀ {c}, isWhite c = false → c ∉ s := by
        intro c inked member
        rw [isBlank_eq_false_of_mem member inked] at blank
        contradiction
      exact .accepted (accepted_of_not_mem (absent (by decide)) (absent (by decide)))
  | deep inked deep => omega
  | malformed inked found =>
      obtain ⟨fails, blamed⟩ := plain.not_accepted inked found
      exact .refused fails blamed
  | name inked found => exact .accepted (accepted_of_name found)
  | sequence inked found each =>
      rw [found] at gather
      exact (gather (fun _ member => member) each).of_iff (plain.accepted_sequence_iff found)
  | alternatives inked found each =>
      rw [found] at gather
      exact ((gather (fun _ member => member) each).map _).of_iff
        (accepted_alternatives_iff found)
  | base _ found => exact absurd (exception_parts found).1 (plain '但' (by decide))
  | continuation _ found => exact absurd (exception_parts found).1 (plain '但' (by decide))
  | exception _ found => exact absurd (exception_parts found).1 (plain '但' (by decide))

/-- A formula without stations, decorations and exceptions is read if and only if no closing lacks
its opening, and else a closing is blamed. -/
theorem parse_accepts_iff (r : Reader) (s : Text) (limit : 3 ≤ r.options.depthLimit)
    (plain : ∀ c, c ∈ ['[', ']', '(', ')', '但'] → c ∉ s) :
    ((∃ conditions, r.parse s = .ok conditions) ↔
      Opened '{' '}' s ∧ ∀ word, word ∈ words s → Opened '<' '>' word) ∧
    (¬ (Opened '{' '}' s ∧ ∀ word, word ∈ words s → Opened '<' '>' word) →
      ∃ fragment delimiter position,
        r.parse s = .error (.malformed fragment delimiter position) ∧
          (delimiter = ['}'] ∨ delimiter = ['>'])) := by
  obtain ⟨outcome, added, concludes, _⟩ := r.exists_concludes {} s
  have ends : r.parse s = outcome := congrArg Prod.fst (concludes [])
  have accepted : Accepted s ↔
      Opened '{' '}' s ∧ ∀ word, word ∈ words s → Opened '<' '>' word :=
    ⟨fun ⟨groups, locks⟩ => ⟨groups, locks⟩, fun ⟨groups, locks⟩ => ⟨groups, locks⟩⟩
  have room : Context.depth {} + reach s ≤ r.options.depthLimit :=
    Nat.zero_add _ ▸ Nat.le_trans (reach_le_three s) limit
  rw [ends, ← accepted]
  cases concludes.verdict plain room with
  | accepted holds => exact ⟨⟨fun _ => holds, fun _ => ⟨_, rfl⟩⟩, fun fails => absurd holds fails⟩
  | refused fails blamed =>
      exact ⟨⟨nofun, fun holds => absurd holds fails⟩, fun _ => ⟨_, _, _, rfl, blamed⟩⟩

theorem parse_accepts_iff_unpaired :
    ∃ (r : Reader) (s t : Text), 3 ≤ r.options.depthLimit ∧
      s = "\x7b<A\x7bB<C>D\x7d<又は\x7bE".toList ∧
      (∀ c, c ∈ ['[', ']', '(', ')', '但'] → c ∉ s) ∧
      Opened '{' '}' s ∧ (∀ word, word ∈ words s → Opened '<' '>' word) ∧
      t = "A\x7bB<C D>\x7d".toList ∧ (∀ c, c ∈ ['[', ']', '(', ')', '但'] → c ∉ t) ∧
      ¬ (Opened '{' '}' t ∧ ∀ word, word ∈ words t → Opened '<' '>' word) ∧
      ∃ fragment delimiter position,
        r.parse t = .error (.malformed fragment delimiter position) ∧
          (delimiter = ['}'] ∨ delimiter = ['>']) := by
  let r : Reader := ⟨.empty, {}⟩
  let s : Text := "\x7b<A\x7bB<C>D\x7d<又は\x7bE".toList
  let t : Text := "A\x7bB<C D>\x7d".toList
  have limit : 3 ≤ r.options.depthLimit := by decide
  have plain : ∀ c, c ∈ ['[', ']', '(', ')', '但'] → c ∉ s :=
    forall_not_mem_of_all (by decide)
  have plainToo : ∀ c, c ∈ ['[', ']', '(', ')', '但'] → c ∉ t :=
    forall_not_mem_of_all (by decide)
  have read : (r.parse s).toOption.isSome = true := by decide +kernel
  obtain ⟨conditions, accepted⟩ := Option.isSome_iff_exists.mp read
  have refused : r.parse t = .error (.malformed "D>".toList ['>'] 7) :=
    Except.eq_error_of_match (by decide +kernel)
  obtain ⟨opened, locks⟩ := (r.parse_accepts_iff s limit plain).1.mp
    ⟨conditions, Except.toOption_eq_some_iff.mp accepted⟩
  have law := r.parse_accepts_iff t limit plainToo
  have fails : ¬ (Opened '{' '}' t ∧ ∀ word, word ∈ words t → Opened '<' '>' word) := by
    intro holds
    obtain ⟨_, accepted⟩ := law.1.mpr holds
    rw [refused] at accepted
    contradiction
  exact ⟨r, s, t, limit, rfl, plain, opened, locks, rfl, plainToo, fails, law.2 fails⟩

end Reader

end SignalBox
