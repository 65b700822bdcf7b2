import SignalBox.Proofs.Step

/-! Formulas without groups, stations and exceptions, written out by their grammar, and the
conditions that each of them is read as. -/

namespace SignalBox

open Text Formula

namespace Phrase

def marks : List Char := ['{', '}', '[', ']', '<', '>', '(', ')', ' ', '但']

structure Name where
  text : Text
  inked : text.isBlank = false
  unmarked : ∀ c, c ∈ marks → c ∉ text
  single : ¬ alternativeMark <:+: text

structure Decorated where
  name : Name
  decoration : Decoration
  decorated : decoration ≠ .plain

inductive Row where
  | one (d : Decorated)
  | more (front : Row) (d : Decorated)

inductive Part where
  | name (n : Name)
  | row (decorated : Row)

/-- Parts by turns outside and inside of partial locks. -/
inductive Locks where
  | bare (outside : Option Part)
  | lock (front : Locks) (inside outside : Option Part)

def Decorated.text (d : Decorated) : Text :=
  d.decoration.wrap d.name.text

def Row.text : Row → Text
  | .one d => d.text
  | .more front d => front.text ++ d.text

def Part.text : Part → Text
  | .name n => n.text
  | .row decorated => decorated.text

def partText (part : Option Part) : Text :=
  part.elim [] Part.text

def Locks.text : Locks → Text
  | .bare outside => partText outside
  | .lock front inside outside =>
      front.text ++ '<' :: partText inside ++ '>' :: partText outside

structure Term where
  locks : Locks
  written : locks.text ≠ []

/-- Terms with a space between any two of them; the gap is of further spaces. -/
inductive Sequence where
  | one (t : Term)
  | more (front : Sequence) (gap : Nat) (t : Term)

def Sequence.text : Sequence → Text
  | .one t => t.locks.text
  | .more front gap t => front.text ++ ' ' :: (List.replicate gap ' ' ++ t.locks.text)

end Phrase

inductive Phrase where
  | one (s : Phrase.Sequence)
  | more (front : Phrase) (s : Phrase.Sequence)

def Phrase.text : Phrase → Text
  | .one s => s.text
  | .more front s => front.text ++ alternativeMark ++ s.text

namespace Phrase

section Conditions

variable (r : Reader) (station : UInt32)

def Name.condition (partialLock : Bool) (decoration : Decoration) (n : Name) : Condition :=
  r.namedCondition { station, partialLock } decoration n.text

def Row.conditions (partialLock : Bool) : Row → List Condition
  | .one d => [d.name.condition r station partialLock d.decoration]
  | .more front d =>
      front.conditions partialLock ++ [d.name.condition r station partialLock d.decoration]

def Part.conditions (partialLock : Bool) : Part → List Condition
  | .name n => [n.condition r station partialLock .plain]
  | .row decorated => decorated.conditions r station partialLock

def partConditions (partialLock : Bool) (part : Option Part) : List Condition :=
  part.elim [] (Part.conditions r station partialLock)

/-- A lock in a word decides for all of its parts. -/
def Locks.conditions (partialLock : Bool) : Locks → List Condition
  | .bare outside => partConditions r station partialLock outside
  | .lock front inside outside =>
      front.conditions false ++ partConditions r station true inside ++
        partConditions r station false outside

def Sequence.conditions (partialLock : Bool) : Sequence → List Condition
  | .one t => t.locks.conditions r station partialLock
  | .more front _ t =>
      front.conditions partialLock ++ t.locks.conditions r station partialLock

def leaves (partialLock : Bool) : Phrase → List Condition
  | .one s => s.conditions r station partialLock
  | .more front s => front.leaves partialLock ++ s.conditions r station partialLock

def conditions (partialLock : Bool) : Phrase → List Condition
  | .one s => s.conditions r station partialLock
  | .more front s =>
      [Condition.choice (Phrase.more front s).text station partialLock
        ((Phrase.more front s).leaves r station partialLock)]

end Conditions

theorem Name.word (n : Name) : Word n.text where
  group := n.unmarked '}' (by decide)
  station := n.unmarked ']' (by decide)
  exception := n.unmarked '但' (by decide)
  single := n.single
  unspaced := n.unmarked ' ' (by decide)

theorem Name.ne_nil (n : Name) : n.text ≠ [] := by
  intro empty
  have inked := n.inked
  rw [empty] at inked
  contradiction

theorem Decorated.parentheses_pos (d : Decorated) : 0 < d.decoration.parentheses := by
  have decorated := d.decorated
  cases kind : d.decoration with
  | plain => contradiction
  | reverse => exact Nat.one_pos
  | summary => exact Nat.two_pos

theorem Decorated.exists_opening (d : Decorated) : ∃ rest, d.text = '(' :: rest := by
  obtain ⟨n, count⟩ := Nat.exists_eq_succ_of_ne_zero (Nat.ne_of_gt d.parentheses_pos)
  rw [text, Decoration.wrap_eq, count, List.replicate_succ]
  exact ⟨_, rfl⟩

theorem Decorated.exists_closing (d : Decorated) : ∃ front, d.text = front ++ [')'] := by
  obtain ⟨n, count⟩ := Nat.exists_eq_succ_of_ne_zero (Nat.ne_of_gt d.parentheses_pos)
  refine ⟨List.replicate (n + 1) '(' ++ d.name.text ++ List.replicate n ')', ?_⟩
  rw [text, Decoration.wrap_eq, count, List.append_assoc _ _ [')'], ← List.replicate_succ']

theorem Row.exists_closing (row : Row) : ∃ front, row.text = front ++ [')'] := by
  cases row with
  | one d => exact d.exists_closing
  | more front d =>
      obtain ⟨inner, closed⟩ := d.exists_closing
      exact ⟨front.text ++ inner, by rw [text, closed, List.append_assoc]⟩

theorem Row.word (row : Row) : Word row.text := by
  induction row with
  | one d => exact d.name.word.wrap d.decoration
  | more front d ih =>
      have last : Word d.text := d.name.word.wrap d.decoration
      obtain ⟨rest, opened⟩ := d.exists_opening
      rw [opened] at last
      rw [text, opened]
      exact ih.join (last.part (List.suffix_cons '(' rest).isInfix) (by decide)

theorem Row.not_mem {c : Char} (row : Row) (mark : c ∈ marks) (inside : c ≠ '(')
    (outside : c ≠ ')') : c ∉ row.text := by
  induction row with
  | one d => exact d.decoration.not_mem_wrap (d.name.unmarked c mark) inside outside
  | more front d ih =>
      have last : c ∉ d.text := d.decoration.not_mem_wrap (d.name.unmarked c mark) inside outside
      simp [text, ih, last]

theorem Row.inked (row : Row) : row.text.isBlank = false := by
  obtain ⟨front, closed⟩ := row.exists_closing
  exact isBlank_eq_false_of_mem (c := ')') (by simp [closed]) (by decide)

theorem Row.cut_more (front : Row) (d : Decorated) :
    cut (Row.more front d).text = .sequence (Operand.ofDecorated
      ⟨front.text, copies d.decoration.parentheses ['('], d.name.text,
        copies d.decoration.parentheses [')'], []⟩) := by
  have positive := d.parentheses_pos
  obtain ⟨inner, closed⟩ := front.exists_closing
  have ends : front.text.getLast? ≠ some '(' := by simp [closed]
  have unopened : '(' ∉ d.name.text := d.name.unmarked '(' (by decide)
  have text : (Row.more front d).text =
      front.text ++ List.replicate d.decoration.parentheses '(' ++
        (d.name.text ++ List.replicate d.decoration.parentheses ')') := by
    rw [Row.text, Decorated.text, Decoration.wrap_eq]
    simp only [List.append_assoc]
  have count : runAtLast ['('] (Row.more front d).text = d.decoration.parentheses := by
    rw [text]
    exact runAtLast_eq positive ends (by simp [unopened])
  have enclosure : enclosedByRun? ['('] [')'] (runAtLast ['('] (Row.more front d).text)
      (Row.more front d).text = some ⟨front.text, copies d.decoration.parentheses ['('],
        d.name.text, copies d.decoration.parentheses [')'], []⟩ := by
    rw [count, text, ← List.append_assoc, ← List.append_nil (_ ++ _),
      enclosedByRun?_eq positive List.not_mem_nil,
      openingRun?_singleton positive (trailingCopies_singleton_eq_zero_iff.mpr ends) unopened]
    rfl
  have adjacent : adjacentMark <:+: (Row.more front d).text := by
    obtain ⟨rest, opened⟩ := d.exists_opening
    exact ⟨inner, rest, by rw [Row.text, closed, opened]; simp [adjacentMark]⟩
  exact (Shape.decorated (Row.word _) (Row.not_mem _ (by decide) (by decide) (by decide))
    adjacent enclosure).eq_cut

theorem word_partText (part : Option Part) : Word (partText part) := by
  rcases part with _ | n | decorated
  · exact word_nil
  · exact n.word
  · exact decorated.word

theorem not_mem_partText {c : Char} (part : Option Part) (mark : c ∈ marks) (inside : c ≠ '(')
    (outside : c ≠ ')') : c ∉ partText part := by
  rcases part with _ | n | decorated
  · exact List.not_mem_nil
  · exact n.unmarked c mark
  · exact decorated.not_mem mark inside outside

theorem Locks.word (locks : Locks) : Word locks.text := by
  induction locks with
  | bare outside => exact word_partText outside
  | lock front inside outside ih =>
      exact (ih.join (word_partText inside) (by decide)).join (word_partText outside) (by decide)

theorem Locks.inked_of_lock (front : Locks) (inside outside : Option Part) :
    (Locks.lock front inside outside).text.isBlank = false :=
  isBlank_eq_false_of_mem (c := '<') (by simp [text]) (by decide)

theorem Term.inked (t : Term) : t.locks.text.isBlank = false := by
  have written := t.written
  cases shape : t.locks with
  | bare outside =>
      rw [shape] at written
      rcases outside with _ | n | decorated
      · contradiction
      · exact n.inked
      · exact decorated.inked
  | lock front inside outside => exact front.inked_of_lock inside outside

theorem undivided_padded {x : Text} (undivided : Undivided x) (gap : Nat) :
    Undivided (List.replicate gap ' ' ++ x) := by
  induction gap with
  | zero => exact undivided
  | succ gap ih => exact word_nil.toUndivided.spaced ih

theorem single_padded {x : Text} (single : ¬ alternativeMark <:+: x) (gap : Nat) :
    ¬ alternativeMark <:+: List.replicate gap ' ' ++ x := by
  induction gap with
  | zero => exact single
  | succ gap ih => exact single_spaced word_nil.single ih

theorem Sequence.undivided (s : Sequence) : Undivided s.text := by
  induction s with
  | one t => exact t.locks.word.toUndivided
  | more front gap t ih => exact ih.spaced (undivided_padded t.locks.word.toUndivided gap)

theorem Sequence.single (s : Sequence) : ¬ alternativeMark <:+: s.text := by
  induction s with
  | one t => exact t.locks.word.single
  | more front gap t ih => exact single_spaced ih (single_padded t.locks.word.single gap)

theorem Sequence.inked (s : Sequence) : s.text.isBlank = false := by
  cases s with
  | one t => exact t.inked
  | more front gap t => simp [text, t.inked]

theorem undivided_text (p : Phrase) : Undivided p.text := by
  induction p with
  | one s => exact s.undivided
  | more front s ih =>
      have mark : Undivided alternativeMark := by
        refine ⟨?_, ?_, ?_⟩ <;> simp [alternativeMark]
      exact (ih.append mark).append s.undivided

end Phrase

/-! Each construct of the grammar is read as its conditions. The names of a row lie a level below
the row, the parts inside a lock a level below the word, and the sequences of a choice a level below
the choice. -/

namespace Reader

open Phrase

variable {r : Reader}

theorem gives_wrapped (context : Context) (n : Name) (decoration : Decoration)
    (shallow : context.depth ≤ r.options.depthLimit) :
    r.Gives context (decoration.wrap n.text)
      [n.condition r context.station context.partialLock decoration] := by
  have unlocked := decoration.not_mem_wrap (n.unmarked '>' (by decide)) (by decide) (by decide)
  have alone := decoration.not_adjacent_wrap (n.unmarked ')' (by decide))
  have stripped := decoration.strip_wrap n.ne_nil (n.unmarked '(' (by decide))
  exact gives_name (decoration.isBlank_wrap n.inked) shallow
    (Shape.name (n.word.wrap decoration) unlocked alone stripped n.inked).eq_cut

theorem gives_row (context : Context) (row : Row) (room : context.depth < r.options.depthLimit) :
    r.Gives context row.text (row.conditions r context.station context.partialLock) := by
  induction row generalizing context with
  | one d => exact gives_wrapped context d.name d.decoration (Nat.le_of_lt room)
  | more front d ih =>
      have wrapped : copies d.decoration.parentheses ['('] ++ d.name.text ++
          copies d.decoration.parentheses [')'] = d.text := by
        rw [copies_singleton, copies_singleton, Decorated.text, Decoration.wrap_eq]
      have earlier := ih (context.into .beside) room
      have last : r.Gives (context.into .inside) d.text
          [d.name.condition r context.station context.partialLock d.decoration] :=
        gives_wrapped (context.into .inside) d.name d.decoration room
      rw [← wrapped] at last
      have gives := gives_sequence (Row.inked _) (Nat.le_of_lt room) (front.cut_more d)
        (.cons earlier (.cons last (.cons (gives_blank rfl) .nil)))
      simp only [List.flatten_cons, List.flatten_nil, List.append_nil] at gives
      exact gives

theorem gives_partText (context : Context) (part : Option Part)
    (room : context.depth < r.options.depthLimit) :
    r.Gives context (partText part)
      (partConditions r context.station context.partialLock part) := by
  rcases part with _ | n | decorated
  · exact gives_blank rfl
  · exact gives_wrapped context n .plain (Nat.le_of_lt room)
  · exact gives_row context decorated room

theorem gives_locks (context : Context) (locks : Locks)
    (room : context.depth + 1 < r.options.depthLimit) :
    r.Gives context locks.text (locks.conditions r context.station context.partialLock) := by
  induction locks generalizing context with
  | bare outside => exact gives_partText context outside (Nat.lt_of_succ_lt room)
  | lock front inside outside ih =>
      have found := (Shape.lock (Locks.lock front inside outside).word
        (not_mem_partText inside (by decide) (by decide) (by decide))
        (not_mem_partText outside (by decide) (by decide) (by decide))).eq_cut
      exact gives_enclosed (front.inked_of_lock inside outside) (by omega) found
        (ih (context.into .unlocked) room)
        (gives_partText (context.into .locked) inside room)
        (gives_partText (context.into .unlocked) outside (Nat.lt_of_succ_lt room))

theorem givesPieces_sequence (context : Context) (s : Sequence)
    (room : context.depth + 1 < r.options.depthLimit) :
    r.GivesPieces context sequenceMark s.text
      (s.conditions r context.station context.partialLock) := by
  have term : ∀ t : Term, r.GivesPieces context sequenceMark t.locks.text
      (t.locks.conditions r context.station context.partialLock) := fun t =>
    givesPieces_whole (by simp [sequenceMark])
      (fun found => t.locks.word.unspaced (found.subset (List.mem_singleton.mpr rfl)))
      (gives_locks context t.locks room)
  induction s with
  | one t => exact term t
  | more front gap t ih =>
      have padded : r.GivesPieces context sequenceMark
          (List.replicate gap ' ' ++ t.locks.text)
          (t.locks.conditions r context.station context.partialLock) := by
        induction gap with
        | zero => exact term t
        | succ gap further =>
            have empty : r.GivesPieces context sequenceMark [] [] :=
              givesPieces_whole (by simp [sequenceMark]) (by simp [sequenceMark])
                (gives_blank rfl)
            exact empty.append rfl (by simp [sequenceMark]) further
      have text : (Sequence.more front gap t).text =
          front.text ++ sequenceMark ++ (List.replicate gap ' ' ++ t.locks.text) :=
        List.append_cons ..
      rw [text]
      exact ih.append rfl (by simp [sequenceMark]) padded

theorem gives_sequenceText (context : Context) (s : Sequence)
    (room : context.depth + 1 < r.options.depthLimit) :
    r.Gives context s.text (s.conditions r context.station context.partialLock) := by
  cases s with
  | one t => exact gives_locks context t.locks room
  | more front gap t =>
      have found := (Shape.words (Sequence.undivided _) (Sequence.single _)
        (by simp [Sequence.text] : ' ' ∈ (Sequence.more front gap t).text)).eq_cut
      obtain ⟨results, each, same⟩ := (givesPieces_sequence (context.into .beside)
        (Sequence.more front gap t) room).each
      have gives := gives_sequence (Sequence.inked _) (by omega) found each
      rw [same] at gives
      exact gives

theorem givesPieces_phrase (context : Context) (p : Phrase)
    (room : context.depth + 1 < r.options.depthLimit) :
    r.GivesPieces context alternativeMark p.text
      (p.leaves r context.station context.partialLock) := by
  have sequence : ∀ s : Sequence, r.GivesPieces context alternativeMark s.text
      (s.conditions r context.station context.partialLock) := fun s =>
    givesPieces_whole (by simp [alternativeMark]) s.single (gives_sequenceText context s room)
  induction p with
  | one s => exact sequence s
  | more front s ih => exact ih.append rfl (by simp [alternativeMark]) (sequence s)

theorem gives_phrase (context : Context) (p : Phrase)
    (room : context.depth + 2 < r.options.depthLimit) :
    r.Gives context p.text (p.conditions r context.station context.partialLock) := by
  cases p with
  | one s => exact gives_sequenceText context s (Nat.lt_of_succ_lt room)
  | more front s =>
      have marked : alternativeMark <:+: (Phrase.more front s).text := ⟨_, _, rfl⟩
      have inked : (Phrase.more front s).text.isBlank = false :=
        isBlank_eq_false_of_mem (marked.subset (by decide : '又' ∈ alternativeMark)) (by decide)
      have found := (Shape.alternatives (undivided_text _) marked).eq_cut
      obtain ⟨results, each, same⟩ := (givesPieces_phrase (context.into .inside)
        (Phrase.more front s) room).each
      have gives := gives_alternatives inked (by omega) found each
      rw [same] at gives
      exact gives

/-- However names are decorated, locked, lined up and put to choice, every one of them is read. In a
word without locks a name is locked as the scope is, else by its own place. -/
theorem readInto_phrase (r : Reader) (log : List Diagnostic) (station : UInt32)
    (partialLock : Bool) (p : Phrase) (limit : 3 ≤ r.options.depthLimit) :
    (r.readInto log { station, partialLock } p.text).1 =
      .ok (p.conditions r station partialLock) :=
  (gives_phrase { station, partialLock } p limit).readInto

theorem readInto_phrase_mixed :
    ∃ (r : Reader) (p : Phrase), 3 ≤ r.options.depthLimit ∧
      p.text = "(A)((B))<CT>  D秒又はE又".toList ∧
      (r.readInto [] { station := 1, partialLock := true } p.text).1 = .ok [
        .choice p.text 1 true [
          { category := .unclassified, station := 1, name := ['A'], reverse := true },
          { category := .unclassified, station := 1, name := ['B'], summary := true },
          { category := .track, station := 1, name := "CT".toList, partialLock := true },
          { category := .timer, station := 1, name := ['D'], partialLock := true },
          { category := .lever, station := 1, name := "E又".toList, partialLock := true }]] := by
  let r : Reader := ⟨DeviceTable.empty.insert ⟨"E又".toList, .lever, by decide, by decide⟩, {}⟩
  let reversed : Decorated :=
    ⟨⟨['A'], by decide, forall_not_mem_of_all (by decide), by decide⟩, .reverse, by decide⟩
  let summed : Decorated :=
    ⟨⟨['B'], by decide, forall_not_mem_of_all (by decide), by decide⟩, .summary, by decide⟩
  let track : Name := ⟨['C', 'T'], by decide, forall_not_mem_of_all (by decide), by decide⟩
  let timer : Name := ⟨['D', '秒'], by decide, forall_not_mem_of_all (by decide), by decide⟩
  let other : Name := ⟨['E', '又'], by decide, forall_not_mem_of_all (by decide), by decide⟩
  let locked : Term := ⟨.lock (.bare (some (.row (.more (.one reversed) summed))))
    (some (.name track)) none, by decide⟩
  let timed : Term := ⟨.bare (some (.name timer)), by decide⟩
  let last : Term := ⟨.bare (some (.name other)), by decide⟩
  let p : Phrase := .more (.one (.more (.one locked) 1 timed)) (.one last)
  have limit : 3 ≤ r.options.depthLimit := by decide
  refine ⟨r, p, limit, by decide, (r.readInto_phrase [] 1 true p limit).trans ?_⟩
  exact congrArg Except.ok (by decide +kernel)

end Reader

end SignalBox
