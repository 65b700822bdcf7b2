import SignalBox.Formula.Cut
import SignalBox.Proofs.Text.Locate
import SignalBox.Proofs.Text.Runs

/-! What a cut says of the text that it is made of: one shape of text for each rule, and exactly
one shape for each text. -/

namespace SignalBox.Formula

open Text

/-- Nothing divides the text at its outermost level. -/
structure Undivided (s : Text) : Prop where
  group : '}' ∉ s
  station : ']' ∉ s
  exception : '但' ∉ s

theorem Undivided.append {x y : Text} (left : Undivided x) (right : Undivided y) :
    Undivided (x ++ y) where
  group := by simp [left.group, right.group]
  station := by simp [left.station, right.station]
  exception := by simp [left.exception, right.exception]

section Dividers

variable {s front before between after : Text} {n : Nat}

theorem Divider.mark_not_mem (undivided : Undivided s) (d : Divider) :
    ∃ c, d.mark = [c] ∧ c ∉ s := by
  cases d with
  | group => exact ⟨'}', rfl, undivided.group⟩
  | station => exact ⟨']', rfl, undivided.station⟩
  | exception => exact ⟨'但', rfl, undivided.exception⟩

theorem furthestRight?_undivided (undivided : Undivided s) (dividers : List Divider) :
    furthestRight? Divider.mark s dividers = none := by
  rw [furthestRight?_eq_none_iff]
  intro d _
  obtain ⟨c, mark, absent⟩ := d.mark_not_mem undivided
  rw [mark, cutLast?_singleton_eq_none absent]

theorem furthestRight?_divided (undivided : Undivided after) (d : Divider) :
    furthestRight? Divider.mark (before ++ d.mark ++ after) [.group, .station, .exception] =
      some (d, ⟨before, d.mark, after⟩) := by
  have here : cutLast? d.mark (before ++ d.mark ++ after) = some ⟨before, d.mark, after⟩ := by
    obtain ⟨c, mark, absent⟩ := d.mark_not_mem undivided
    rw [mark, List.append_assoc]
    exact cutLast?_singleton absent
  have elsewhere : ∀ e split, e ≠ d → cutLast? e.mark (before ++ d.mark ++ after) = some split →
      split.tokenAt < byteLength before := by
    intro e split differ found
    obtain ⟨c, mark, absent⟩ := e.mark_not_mem undivided
    have other : c ∉ d.mark ++ after := by
      cases d <;> cases e <;> cases mark <;> simp_all [Divider.mark, exceptionMark]
    rw [mark, List.append_assoc, cutLast?_singleton_append other] at found
    obtain ⟨inner, inBefore, rfl⟩ := Option.map_eq_some_iff.mp found
    have lt := tokenAt_lt_of_cutLast? inBefore
    exact lt
  have listed : ∀ e : Divider, e ∈ [Divider.group, .station, .exception] := by
    intro e
    cases e <;> simp
  cases chosen : furthestRight? Divider.mark (before ++ d.mark ++ after)
      [.group, .station, .exception] with
  | none => rw [furthestRight?_eq_none_iff.mp chosen d (listed d)] at here; contradiction
  | some found =>
      obtain ⟨e, split⟩ := found
      have last := (cutLast?_of_furthestRight? chosen).2
      have le := tokenAt_le_of_furthestRight? chosen (listed d) here
      by_cases same : e = d
      · subst same
        rw [here] at last
        cases last
        rfl
      · exact absurd (elsewhere e split same last) (Nat.not_lt.mpr le)

theorem exists_last_divider (s : Text) :
    Undivided s ∨ ∃ before d after, s = before ++ Divider.mark d ++ after ∧ Undivided after := by
  induction s with
  | nil => exact .inl ⟨List.not_mem_nil, List.not_mem_nil, List.not_mem_nil⟩
  | cons c s ih =>
      rcases ih with undivided | ⟨before, d, after, rfl, undivided⟩
      · by_cases divides : ∃ d : Divider, d.mark = [c]
        · obtain ⟨d, mark⟩ := divides
          exact .inr ⟨[], d, s, by rw [mark]; rfl, undivided⟩
        · refine .inl ⟨?_, ?_, ?_⟩
          · exact List.not_mem_cons_of_ne_of_not_mem
              (fun same => divides ⟨.group, same ▸ rfl⟩) undivided.group
          · exact List.not_mem_cons_of_ne_of_not_mem
              (fun same => divides ⟨.station, same ▸ rfl⟩) undivided.station
          · exact List.not_mem_cons_of_ne_of_not_mem
              (fun same => divides ⟨.exception, same ▸ rfl⟩) undivided.exception
      · exact .inr ⟨c :: before, d, after, rfl, undivided⟩

theorem cut_undivided (undivided : Undivided s) : cut s = Cut.undivided s := by
  rw [cut, furthestRight?_undivided undivided]

theorem cut_divided (undivided : Undivided after) (d : Divider) :
    cut (front ++ (d.mark ++ after)) =
      match d with
      | .group => Cut.group (front ++ (d.mark ++ after))
      | .station => Cut.stationScope (front ++ (d.mark ++ after))
      | .exception => Cut.exceptionAt ⟨front, d.mark, after⟩ := by
  rw [cut, ← List.append_assoc, furthestRight?_divided undivided]
  cases d <;> rfl

theorem cut_exception (undivided : Undivided after) :
    cut (before ++ '但' :: after) = Cut.exceptionAt ⟨before, exceptionMark, after⟩ :=
  cut_divided undivided .exception

theorem cut_group_eq (undivided : Undivided after) :
    cut (front ++ '}' :: after) = Cut.group (front ++ '}' :: after) :=
  cut_divided undivided .group

theorem cut_group (enclosed : '{' ∉ between) (undivided : Undivided after) :
    cut (before ++ '{' :: between ++ '}' :: after) =
      .sequence (Operand.ofEnclosure .beside .inside ⟨before, ['{'], between, ['}'], after⟩) := by
  rw [cut_group_eq undivided, Cut.group,
    enclosedByLast?_of_cutLast? (cutLast?_singleton undivided.group), cutLast?_singleton enclosed]
  rfl

theorem cut_group_unopened (absent : '{' ∉ front) (undivided : Undivided after) :
    cut (front ++ '}' :: after) = .malformed ['}'] := by
  rw [cut_group_eq undivided, Cut.group,
    enclosedByLast?_of_cutLast? (cutLast?_singleton undivided.group),
    cutLast?_singleton_eq_none absent]
  rfl

theorem cut_station_eq (positive : 0 < n) (ends : front.getLast? ≠ some ']')
    (undivided : Undivided after) :
    cut (front ++ List.replicate n ']' ++ after) =
      match openingRun? ['['] n front [] with
      | none => .malformed (copies n [']'])
      | some (before, between) =>
          .sequence (Operand.ofEnclosure .beside (.inStation (UInt32.ofNatClamp n))
            ⟨before, copies n ['['], between, copies n [']'], after⟩) := by
  have divided : cut (front ++ List.replicate n ']' ++ after) =
      Cut.stationScope (front ++ List.replicate n ']' ++ after) := by
    obtain ⟨m, rfl⟩ : ∃ m, n = m + 1 := ⟨n - 1, by omega⟩
    have parts : front ++ List.replicate (m + 1) ']' ++ after =
        front ++ List.replicate m ']' ++ (Divider.mark .station ++ after) := by
      rw [List.replicate_succ']
      simp [Divider.mark]
    rw [parts]
    exact cut_divided undivided .station
  rw [divided, Cut.stationScope, runAtLast_eq positive ends undivided.station,
    enclosedByRun?_eq positive undivided.station]
  cases openingRun? ['['] n front [] <;> rfl

theorem cut_station (positive : 0 < n) (ends : front.getLast? ≠ some ']')
    (opened : LastRun '[' n front.length front before between) (undivided : Undivided after) :
    cut (front ++ List.replicate n ']' ++ after) =
      .sequence (Operand.ofEnclosure .beside (.inStation (UInt32.ofNatClamp n))
        ⟨before, copies n ['['], between, copies n [']'], after⟩) := by
  rw [← List.append_nil front] at opened
  rw [cut_station_eq positive ends undivided, (openingRun?_eq_some_iff positive).mpr]
  simpa using opened

theorem cut_station_unopened (positive : 0 < n) (ends : front.getLast? ≠ some ']')
    (unopened : ∀ before between, ¬ LastRun '[' n front.length front before between)
    (undivided : Undivided after) :
    cut (front ++ List.replicate n ']' ++ after) = .malformed (copies n [']']) := by
  rw [cut_station_eq positive ends undivided]
  cases found : openingRun? ['['] n front [] with
  | none => rfl
  | some x =>
      have opened := (openingRun?_eq_some_iff positive).mp found
      rw [List.append_nil] at opened
      exact absurd opened (unopened x.1 x.2)

end Dividers

def Decoration.wrap : Decoration → Text → Text
  | .plain, token => token
  | .reverse, token => ['('] ++ token ++ [')']
  | .summary, token => ['(', '('] ++ token ++ [')', ')']

theorem Decoration.wrap_strip (s : Text) :
    (Decoration.strip s).1.wrap (Decoration.strip s).2 = s := by
  rw [Decoration.strip]
  split
  · next token doubled => exact (unwrap?_eq_some_iff.mp doubled).symm
  · split
    · next token wrapped => exact (unwrap?_eq_some_iff.mp wrapped).symm
    · rfl

def Decoration.parentheses : Decoration → Nat
  | .plain => 0
  | .reverse => 1
  | .summary => 2

theorem Decoration.wrap_eq (decoration : Decoration) (token : Text) :
    decoration.wrap token = List.replicate decoration.parentheses '(' ++ token ++
      List.replicate decoration.parentheses ')' := by
  cases decoration with
  | plain => simp [wrap, parentheses]
  | reverse => rfl
  | summary => rfl

theorem Decoration.strip_wrap (decoration : Decoration) {token : Text} (named : token ≠ [])
    (undecorated : '(' ∉ token) : strip (decoration.wrap token) = (decoration, token) := by
  have none : ∀ {opening closing s : Text}, (∀ inner, s ≠ opening ++ inner ++ closing) →
      unwrap? opening closing s = none := by
    intro opening closing s differ
    rw [Option.eq_none_iff_forall_ne_some]
    exact fun inner found => differ inner (unwrap?_eq_some_iff.mp found)
  have doubled : ∀ inner : Text, ['('] ++ token ++ [')'] ≠ ['(', '('] ++ inner ++ [')', ')'] := by
    intro inner same
    cases token with
    | nil => contradiction
    | cons c token =>
        simp only [List.cons_append, List.nil_append, List.cons.injEq] at same
        exact undecorated (by simp [same.2.1])
  have wrapped : ∀ front inner back : Text, token ≠ '(' :: front ++ inner ++ back := by
    rintro front inner back rfl
    exact undecorated (by simp)
  cases decoration with
  | plain =>
      rw [wrap, strip, none (wrapped ['('] · [')', ')']), none (wrapped [] · [')'])]
  | reverse =>
      have inside : unwrap? ['('] [')'] (['('] ++ token ++ [')']) = some token :=
        unwrap?_eq_some_iff.mpr rfl
      rw [wrap, strip, none doubled, inside]
  | summary =>
      have inside : unwrap? ['(', '('] [')', ')'] (['(', '('] ++ token ++ [')', ')']) =
          some token := unwrap?_eq_some_iff.mpr rfl
      rw [wrap, strip, inside]

section Wrap

variable {token : Text} {c : Char}

theorem Decoration.not_mem_wrap (decoration : Decoration) (absent : c ∉ token)
    (inside : c ≠ '(') (outside : c ≠ ')') : c ∉ decoration.wrap token := by
  rw [wrap_eq]
  simp [absent, inside, outside]

theorem Decoration.isBlank_wrap (decoration : Decoration) (inked : token.isBlank = false) :
    (decoration.wrap token).isBlank = false := by
  rw [wrap_eq]
  simp [inked]

theorem Decoration.not_adjacent_wrap (decoration : Decoration) (closing : ')' ∉ token) :
    ¬ adjacentMark <:+: decoration.wrap token := by
  rw [wrap_eq]
  exact not_infix_pair (by simp [closing]) (by simp)

end Wrap

theorem Undivided.spaced {x y : Text} (left : Undivided x) (right : Undivided y) :
    Undivided (x ++ ' ' :: y) := by
  have space : Undivided [' '] := by
    refine ⟨?_, ?_, ?_⟩ <;> simp
  exact List.append_cons x ' ' y ▸ (left.append space).append right

theorem single_spaced {x y : Text} (left : ¬ alternativeMark <:+: x)
    (right : ¬ alternativeMark <:+: y) : ¬ alternativeMark <:+: x ++ ' ' :: y :=
  fun found => (infix_of_append_cons (by decide) found).elim left right

/-- A text that neither a divider nor an alternative nor a space cuts. -/
structure Word (s : Text) : Prop extends Undivided s where
  single : ¬ alternativeMark <:+: s
  unspaced : ' ' ∉ s

theorem Word.part {s t : Text} (word : Word s) (part : t <:+: s) : Word t where
  group member := word.group (part.subset member)
  station member := word.station (part.subset member)
  exception member := word.exception (part.subset member)
  single marked := word.single (marked.trans part)
  unspaced member := word.unspaced (part.subset member)

theorem Word.join {c : Char} {x y : Text} (left : Word x) (right : Word y)
    (plain : c ∉ ['}', ']', '但', ' ', '又', 'は']) : Word (x ++ c :: y) := by
  have absent : ∀ {d}, d ∈ ['}', ']', '但', ' ', '又', 'は'] → d ∉ x → d ∉ y → d ∉ x ++ c :: y := by
    intro d mark inLeft inRight member
    rcases List.mem_append.mp member with first | second
    · exact inLeft first
    · rcases List.mem_cons.mp second with rfl | second
      · exact plain mark
      · exact inRight second
  refine ⟨⟨absent (by decide) left.group right.group,
    absent (by decide) left.station right.station,
    absent (by decide) left.exception right.exception⟩, ?_,
    absent (by decide) left.unspaced right.unspaced⟩
  intro found
  have outside : c ∉ alternativeMark := fun member =>
    plain (List.mem_of_mem_drop (i := 4) member)
  exact (infix_of_append_cons outside found).elim left.single right.single

theorem word_nil : Word [] := by
  refine ⟨⟨?_, ?_, ?_⟩, ?_, ?_⟩ <;> simp [alternativeMark]

theorem Word.wrap {token : Text} (word : Word token) (decoration : Decoration) :
    Word (decoration.wrap token) := by
  have once : ∀ {t}, Word t → Word (['('] ++ t ++ [')']) := fun inside =>
    (word_nil.join inside (by decide)).join word_nil (by decide)
  cases decoration with
  | plain => exact word
  | reverse => exact once word
  | summary => simpa [Decoration.wrap] using once (once word)

inductive Shape : Text → Cut → Prop
  | group (enclosed : '{' ∉ between) (undivided : Undivided after) :
      Shape (before ++ '{' :: between ++ '}' :: after)
        (.sequence (Operand.ofEnclosure .beside .inside ⟨before, ['{'], between, ['}'], after⟩))
  | groupUnopened (absent : '{' ∉ front) (undivided : Undivided after) :
      Shape (front ++ '}' :: after) (.malformed ['}'])
  | station (positive : 0 < n) (ends : front.getLast? ≠ some ']')
      (opened : LastRun '[' n front.length front before between) (undivided : Undivided after) :
      Shape (front ++ List.replicate n ']' ++ after)
        (.sequence (Operand.ofEnclosure .beside (.inStation (UInt32.ofNatClamp n))
          ⟨before, copies n ['['], between, copies n [']'], after⟩))
  | stationUnopened (positive : 0 < n) (ends : front.getLast? ≠ some ']')
      (unopened : ∀ before between, ¬ LastRun '[' n front.length front before between)
      (undivided : Undivided after) :
      Shape (front ++ List.replicate n ']' ++ after) (.malformed (copies n [']']))
  | exception (undivided : Undivided after) :
      Shape (before ++ '但' :: after) (Cut.exceptionAt ⟨before, exceptionMark, after⟩)
  | alternatives (undivided : Undivided s) (found : alternativeMark <:+: s) :
      Shape s (.alternatives ((pieces alternativeMark s).map (Operand.ofPiece .inside)))
  | words (undivided : Undivided s) (single : ¬ alternativeMark <:+: s) (found : ' ' ∈ s) :
      Shape s (.sequence ((pieces sequenceMark s).map (Operand.ofPiece .beside)))
  | lock (word : Word (before ++ '<' :: between ++ '>' :: after)) (enclosed : '<' ∉ between)
      (last : '>' ∉ after) :
      Shape (before ++ '<' :: between ++ '>' :: after)
        (.sequence (Operand.ofEnclosure .unlocked .locked
          ⟨before, ['<'], between, ['>'], after⟩))
  | lockUnopened (word : Word (front ++ '>' :: after)) (absent : '<' ∉ front)
      (last : '>' ∉ after) :
      Shape (front ++ '>' :: after) (.malformed ['>'])
  | decorated {x : Enclosure} (word : Word s) (unlocked : '>' ∉ s)
      (found : adjacentMark <:+: s)
      (enclosure : enclosedByRun? ['('] [')'] (runAtLast ['('] s) s = some x) :
      Shape s (.sequence (Operand.ofDecorated x))
  | decoratedUnclosed (word : Word s) (unlocked : '>' ∉ s) (found : adjacentMark <:+: s)
      (unclosed : enclosedByRun? ['('] [')'] (runAtLast ['('] s) s = none) :
      Shape s (.malformed adjacentMark)
  | name {decoration : Decoration} {token : Text} (word : Word s) (unlocked : '>' ∉ s)
      (alone : ¬ adjacentMark <:+: s) (stripped : Decoration.strip s = (decoration, token))
      (named : token.isBlank = false) :
      Shape s (.name decoration token)
  | nameless {decoration : Decoration} {token : Text} (word : Word s) (unlocked : '>' ∉ s)
      (alone : ¬ adjacentMark <:+: s) (stripped : Decoration.strip s = (decoration, token))
      (blank : token.isBlank = true) :
      Shape s (.malformed decoration.closing)

theorem shape_single {s : Text} (word : Word s) (unlocked : '>' ∉ s)
    (alone : ¬ adjacentMark <:+: s) :
    Shape s (Cut.single s) := by
  cases stripped : Decoration.strip s with
  | mk decoration token =>
      rw [Cut.single, stripped]
      dsimp only
      split
      · next blank => exact .nameless word unlocked alone stripped blank
      · next named => exact .name word unlocked alone stripped (by simpa using named)

theorem shape_adjacent {s : Text} (word : Word s) (unlocked : '>' ∉ s)
    (found : adjacentMark <:+: s) :
    Shape s (Cut.adjacent s) := by
  rw [Cut.adjacent]
  split
  · next unclosed => exact .decoratedUnclosed word unlocked found unclosed
  · next enclosure => exact .decorated word unlocked found enclosure

theorem shape_partialLock {s : Text} (word : Word s) (member : '>' ∈ s) :
    Shape s (Cut.partialLock s) := by
  obtain ⟨front, after, rfl, last⟩ := exists_last_of_mem member
  rw [Cut.partialLock, enclosedByLast?_of_cutLast? (cutLast?_singleton last)]
  by_cases opened : '<' ∈ front
  · obtain ⟨before, between, rfl, enclosed⟩ := exists_last_of_mem opened
    rw [cutLast?_singleton enclosed]
    exact .lock word enclosed last
  · rw [cutLast?_singleton_eq_none opened]
    exact .lockUnopened word opened last

theorem shape_undivided {s : Text} (undivided : Undivided s) : Shape s (Cut.undivided s) := by
  have isInfix : ∀ {token : Text}, token ≠ [] → (contains token s = true ↔ token <:+: s) :=
    fun nonempty => contains_eq_true_iff nonempty
  rw [Cut.undivided]
  split
  · next found => exact .alternatives undivided ((isInfix (by simp [alternativeMark])).mp found)
  · next absent =>
      have single : ¬ alternativeMark <:+: s :=
        fun found => absent ((isInfix (by simp [alternativeMark])).mpr found)
      split
      · next spaced => exact .words undivided single (contains_singleton_iff.mp spaced)
      · next unspaced =>
          have word : Word s :=
            ⟨undivided, single, fun member => unspaced (contains_singleton_iff.mpr member)⟩
          split
          · next locked => exact shape_partialLock word (contains_singleton_iff.mp locked)
          · next unlocked =>
              have unlocked : '>' ∉ s :=
                fun member => unlocked (contains_singleton_iff.mpr member)
              split
              · next found =>
                  exact shape_adjacent word unlocked
                    ((isInfix (by simp [adjacentMark])).mp found)
              · next alone =>
                  exact shape_single word unlocked
                    fun found => alone ((isInfix (by simp [adjacentMark])).mpr found)

theorem shape_cut (s : Text) : Shape s (cut s) := by
  rcases exists_last_divider s with undivided | ⟨front, d, after, rfl, undivided⟩
  · rw [cut_undivided undivided]
    exact shape_undivided undivided
  · rw [List.append_assoc]
    cases d with
    | group =>
        by_cases opened : '{' ∈ front
        · obtain ⟨before, between, rfl, enclosed⟩ := exists_last_of_mem opened
          have parts : before ++ '{' :: between ++ (Divider.group.mark ++ after) =
              before ++ '{' :: between ++ '}' :: after := rfl
          rw [parts, cut_group enclosed undivided]
          exact .group enclosed undivided
        · have parts : front ++ (Divider.group.mark ++ after) = front ++ '}' :: after := rfl
          rw [parts, cut_group_unopened opened undivided]
          exact .groupUnopened opened undivided
    | station =>
        obtain ⟨rest, run, ends⟩ := trailingCopies_singleton_append ']' front
        rw [trailingCopies_singleton_eq_zero_iff] at ends
        generalize trailingCopies [']'] front = more at run
        have parts : front ++ (Divider.station.mark ++ after) =
            rest ++ List.replicate (more + 1) ']' ++ after := by
          rw [run, List.replicate_succ']
          simp [Divider.mark]
        rw [parts]
        by_cases opened : ∃ before between,
            LastRun '[' (more + 1) rest.length rest before between
        · obtain ⟨before, between, opened⟩ := opened
          rw [cut_station more.succ_pos ends opened undivided]
          exact .station more.succ_pos ends opened undivided
        · simp only [not_exists] at opened
          rw [cut_station_unopened more.succ_pos ends opened undivided]
          exact .stationUnopened more.succ_pos ends opened undivided
    | exception =>
        have parts : front ++ (Divider.exception.mark ++ after) = front ++ '但' :: after := rfl
        rw [parts, cut_exception undivided]
        exact .exception undivided

theorem cut_word {s : Text} (word : Word s) :
    cut s =
      if contains ['>'] s then Cut.partialLock s
      else if contains adjacentMark s then Cut.adjacent s
      else Cut.single s := by
  have single : ¬ contains alternativeMark s = true :=
    fun found => word.single ((contains_eq_true_iff (by simp [alternativeMark])).mp found)
  have unspaced : ¬ contains sequenceMark s = true :=
    fun found => word.unspaced (contains_singleton_iff.mp found)
  rw [cut_undivided word.toUndivided, Cut.undivided, if_neg single, if_neg unspaced]

theorem cut_unlocked {s : Text} (word : Word s) (unlocked : '>' ∉ s) :
    cut s = if contains adjacentMark s then Cut.adjacent s else Cut.single s := by
  rw [cut_word word, if_neg fun found => unlocked (contains_singleton_iff.mp found)]

theorem cut_alone {s : Text} (word : Word s) (unlocked : '>' ∉ s)
    (alone : ¬ adjacentMark <:+: s) : cut s = Cut.single s := by
  rw [cut_unlocked word unlocked, if_neg fun found =>
    alone ((contains_eq_true_iff (by simp [adjacentMark])).mp found)]

theorem Shape.eq_cut {s : Text} {c : Cut} (shape : Shape s c) : cut s = c := by
  have isInfix : ∀ {token : Text}, token ≠ [] → (contains token s = true ↔ token <:+: s) :=
    fun nonempty => contains_eq_true_iff nonempty
  cases shape with
  | group enclosed undivided => exact cut_group enclosed undivided
  | groupUnopened absent undivided => exact cut_group_unopened absent undivided
  | station positive ends opened undivided => exact cut_station positive ends opened undivided
  | stationUnopened positive ends unopened undivided =>
      exact cut_station_unopened positive ends unopened undivided
  | exception undivided => exact cut_exception undivided
  | alternatives undivided found =>
      rw [cut_undivided undivided, Cut.undivided,
        if_pos ((isInfix (by simp [alternativeMark])).mpr found)]
  | words undivided single found =>
      have single : ¬ contains alternativeMark s = true :=
        fun found => single ((isInfix (by simp [alternativeMark])).mp found)
      have spaced : contains sequenceMark s = true := contains_singleton_iff.mpr found
      rw [cut_undivided undivided, Cut.undivided, if_neg single, if_pos spaced]
  | lock word enclosed last =>
      rw [cut_word word, if_pos (contains_singleton_iff.mpr (by simp)), Cut.partialLock,
        enclosedByLast?_of_cutLast? (cutLast?_singleton last), cutLast?_singleton enclosed]
      rfl
  | lockUnopened word absent last =>
      rw [cut_word word, if_pos (contains_singleton_iff.mpr (by simp)), Cut.partialLock,
        enclosedByLast?_of_cutLast? (cutLast?_singleton last), cutLast?_singleton_eq_none absent]
      rfl
  | decorated word unlocked found enclosure =>
      rw [cut_unlocked word unlocked, if_pos ((isInfix (by simp [adjacentMark])).mpr found),
        Cut.adjacent, enclosure]
  | decoratedUnclosed word unlocked found unclosed =>
      rw [cut_unlocked word unlocked, if_pos ((isInfix (by simp [adjacentMark])).mpr found),
        Cut.adjacent, unclosed]
  | name word unlocked alone stripped named =>
      rw [cut_alone word unlocked alone, Cut.single, stripped]
      simp [named]
  | nameless word unlocked alone stripped blank =>
      rw [cut_alone word unlocked alone, Cut.single, stripped]
      simp [blank]

theorem exists_three_parts {o p q : Operand} {parts : List α} {holds : Operand → α → Prop}
    (each : List.Forall₂ holds [o, p, q] parts) :
    ∃ a b c, parts = [a, b, c] ∧ holds o a ∧ holds p b ∧ holds q c := by
  rcases each with _ | ⟨first, _ | ⟨second, _ | ⟨third, _ | _⟩⟩⟩
  exact ⟨_, _, _, rfl, first, second, third⟩

theorem map_text_ofPiece (separator s : Text) (place : Place) :
    ((pieces separator s).map (Operand.ofPiece place)).map Operand.text = splitOn separator s := by
  rw [List.map_map]
  exact map_text_placed _ _ _

theorem holds_of_pieces {β γ : Type} {separator s : Text} {place : Place}
    {parts : List (List β × γ)} (holds : Text → List β → Prop) (nonempty : separator ≠ [])
    (join : ∀ x y xs ys, holds x xs → holds y ys → holds (x ++ separator ++ y) (xs ++ ys))
    (each : List.Forall₂ (fun o part => holds o.text part.1)
      ((pieces separator s).map (Operand.ofPiece place)) parts) :
    holds s (parts.flatMap Prod.fst) := by
  refine holds_of_splitOn holds nonempty join ?_
  rw [← map_text_ofPiece separator s place, List.forall₂_map_left_iff,
    List.forall₂_map_right_iff]
  exact each

end SignalBox.Formula
