import SignalBox.Proofs.Likeness

/-! Sequences. The parts between the spaces are read each for itself, so two sequences may be
written as one. That and the way in which exceptions hang under conditions make an exception behind
an exception the same as both in one sequence. -/

namespace SignalBox

open Text Formula Formula.Reading

namespace Formula

/-- A text in which nothing binds more loosely than a space. -/
structure Sequential (s : Text) : Prop extends Undivided s where
  single : ¬ alternativeMark <:+: s

variable {x y : Text}

theorem Word.sequential (word : Word x) : Sequential x :=
  ⟨word.toUndivided, word.single⟩

theorem Sequential.spaced (left : Sequential x) (right : Sequential y) :
    Sequential (x ++ ' ' :: y) :=
  ⟨left.toUndivided.spaced right.toUndivided, single_spaced left.single right.single⟩

end Formula

theorem Formula.Reading.gather_nothing {read : α → Reading (List β)} {xs : List α}
    (each : ∀ a, a ∈ xs → read a = pure []) : gather read xs = pure [] := by
  induction xs with
  | nil => rfl
  | cons a xs ih =>
      rw [List.forall_mem_cons] at each
      rw [gather, each.1, pure_bind, ih each.2]
      rfl

theorem Formula.Reading.gather_filter {read : α → Reading (List β)} {keep : α → Bool} {xs : List α}
    (rest : ∀ a, a ∈ xs → keep a = false → read a = pure []) :
    gather read (xs.filter keep) = gather read xs := by
  induction xs with
  | nil => rfl
  | cons a xs ih =>
      rw [List.forall_mem_cons] at rest
      cases kept : keep a with
      | true => rw [List.filter_cons_of_pos kept, gather, gather, ih rest.2]
      | false =>
          rw [List.filter_cons_of_neg (Bool.eq_false_iff.mp kept), ih rest.2, gather, rest.1 kept,
            pure_bind]
          exact (bind_pure _).symm

theorem Formula.Reading.exists_runsTo_warn (p : Prop) [Decidable p] (d : Diagnostic) (a : α) :
    ∃ added, RunsTo (do
      if p then
        warn d
      pure a) (.ok a) added := by
  split
  · exact ⟨_, (runsTo_warn d).bind (runsTo_pure a)⟩
  · exact ⟨_, runsTo_pure a⟩

namespace Condition

theorem followedBy_followedBy (c : Condition) (first second : List Condition) :
    (c.followedBy first).followedBy second = c.followedBy (first ++ second) := by
  rw [followedBy, followedBy, followedBy, List.append_assoc]

theorem map_followedBy_followedBy (cs first second : List Condition) :
    (cs.map (·.followedBy first)).map (·.followedBy second) =
      cs.map (·.followedBy (first ++ second)) := by
  rw [List.map_map]
  exact List.map_congr_left fun c _ => c.followedBy_followedBy first second

end Condition

namespace Reader

variable {r : Reader} {context : Context} {s t u before after : Text} {operands : List Operand}
  {conditions cs first second : List Condition} {log : List Diagnostic}

theorem continueWith_continueWith :
    continueWith second (continueWith first cs) = continueWith (first ++ second) cs := by
  cases cs with
  | nil => rfl
  | cons c rest =>
      have kept : (c.followedBy first).isChoice = c.isChoice := rfl
      by_cases leading : c.isChoice = true
      · rw [continueWith, continueWith, if_pos leading, if_pos leading, continueWith]
        exact (if_pos leading).trans
          (congrArg (fun children => { c with children } :: rest)
            (Condition.map_followedBy_followedBy _ _ _))
      · rw [continueWith, continueWith, if_neg leading, if_neg leading, List.map_cons,
          continueWith, if_neg (kept ▸ leading)]
        exact Condition.map_followedBy_followedBy (c :: rest) first second

theorem read_blank (blank : s.isBlank = true) : r.read context s = pure [] := by
  rw [read_eq, if_pos blank]

theorem read_sequential (shallow : context.depth ≤ r.options.depthLimit)
    (sequential : Sequential s) :
    r.read context s = gather (fun o => r.read (context.enter o) o.text)
      ((pieces sequenceMark s).map (Operand.ofPiece .beside)) := by
  by_cases spaced : ' ' ∈ s
  · cases blank : s.isBlank with
    | true =>
        refine (read_blank blank).trans (gather_nothing ?_).symm
        intro o member
        have piece : o.text ∈ splitOn sequenceMark s :=
          map_text_ofPiece sequenceMark s .beside ▸ List.mem_map_of_mem member
        exact read_blank (isBlank_part (infix_of_mem_splitOn (by simp [sequenceMark]) piece) blank)
    | false =>
        rw [read_eq, blank, if_neg Bool.false_ne_true, if_neg (Nat.not_lt.mpr shallow),
          (Shape.words sequential.toUndivided sequential.single spaced).eq_cut]
  · have whole : splitOn sequenceMark s = [s] := splitOn_singleton_of_not_mem spaced
    rw [pieces, whole]
    exact ((bind_congr fun results => congrArg pure (List.append_nil results)).trans
      (bind_pure _)).symm

theorem readInto_eq_ok_iff :
    (r.readInto log context s).1 = .ok conditions ↔ r.Gives context s conditions := by
  constructor
  · intro accepted
    obtain ⟨added, _, concludes⟩ := concludes_of_readInto (Prod.ext accepted rfl)
    exact concludes.gives
  · exact Gives.readInto

theorem gives_sequential_iff (shallow : context.depth ≤ r.options.depthLimit)
    (sequential : Sequential s) :
    r.Gives context s conditions ↔ r.GivesPieces context sequenceMark s conditions := by
  constructor
  · intro gives
    obtain ⟨added, runs⟩ := gives context.offset
    have each : ∀ o, o ∈ (pieces sequenceMark s).map (Operand.ofPiece .beside) →
        Ends (r.read (context.enter o) o.text) (r.Concludes (context.enter o) o.text) := by
      intro o _
      obtain ⟨outcome, added, concludes, _⟩ := r.exists_concludes (context.enter o) o.text
      exact ⟨outcome, added, concludes, concludes⟩
    obtain ⟨outcome, others, ends, gathered⟩ := ends_gather each
    rw [← read_sequential shallow sequential] at ends
    obtain ⟨same, _⟩ := Concludes.unique runs ends
    obtain ⟨parts, split, rfl, _⟩ := gathered.parts same
    refine ⟨parts.map Prod.fst, ?_, (List.flatMap_def ..).symm⟩
    rw [← map_text_ofPiece sequenceMark s .beside, List.forall₂_map_left_iff,
      List.forall₂_map_right_iff]
    rw [List.forall₂_map_left_iff] at split ⊢
    exact split.imp fun _ _ concludes => concludes.gives
  · intro gives offset
    have beside : r.GivesPieces (context.into .beside) sequenceMark s conditions := gives
    obtain ⟨results, each, rfl⟩ := beside.each
    obtain ⟨added, runs⟩ := exists_runsTo_operands offset each
    have shallowThere : Context.depth { context with offset } ≤ r.options.depthLimit := shallow
    exact ⟨added, (read_sequential shallowThere sequential).symm ▸ runs⟩

theorem gives_spaced_iff (shallow : context.depth ≤ r.options.depthLimit) (left : Sequential t)
    (right : Sequential u) :
    r.Gives context (t ++ ' ' :: u) conditions ↔
      ∃ first second, r.Gives context t first ∧ r.Gives context u second ∧
        conditions = first ++ second := by
  simp only [gives_sequential_iff shallow left, gives_sequential_iff shallow right,
    gives_sequential_iff shallow (left.spaced right)]
  constructor
  · rintro ⟨results, each, rfl⟩
    rw [sequenceMark, splitOn_singleton_append] at each
    have first := (List.forall₂_take_append _ _ _ each.flip).flip
    have second := (List.forall₂_drop_append _ _ _ each.flip).flip
    refine ⟨_, _, ⟨_, first, rfl⟩, ⟨_, second, rfl⟩, ?_⟩
    rw [← List.flatten_append, List.take_append_drop]
  · rintro ⟨first, second, before, after, rfl⟩
    rw [List.append_cons]
    exact before.append rfl (by simp [sequenceMark]) after

theorem gives_exception_iff (shallow : context.depth ≤ r.options.depthLimit)
    (undivided : Undivided after) :
    r.Gives context (before ++ '但' :: after) conditions ↔
      ∃ base continuation, r.Gives context before base ∧ r.Gives context after continuation ∧
        conditions = continueWith continuation base := by
  have inked : (before ++ '但' :: after).isBlank = false :=
    isBlank_eq_false_of_mem (c := '但') (by simp) (by decide)
  have cutThere : cut (before ++ '但' :: after) =
      Cut.exceptionAt ⟨before, exceptionMark, after⟩ := cut_exception undivided
  constructor
  · intro gives
    obtain ⟨added, concludes⟩ := gives context.offset
    cases (Concludes.step concludes).success rfl with
    | blank blank =>
        rw [inked] at blank
        contradiction
    | name _ found => cases cutThere.symm.trans found
    | sequence _ found => cases cutThere.symm.trans found
    | alternatives _ found => cases cutThere.symm.trans found
    | exception _ found first second =>
        cases cutThere.symm.trans found
        exact ⟨_, _, first.gives, second.gives, rfl⟩
  · rintro ⟨base, continuation, first, second, rfl⟩ offset
    obtain ⟨earlier, runs⟩ := first offset
    obtain ⟨later, runsToo⟩ := second (offset + byteLength (before ++ ['但']))
    have shallowThere : Context.depth { context with offset } ≤ r.options.depthLimit := shallow
    rw [read_before_exception shallowThere undivided]
    obtain ⟨warned, last⟩ := exists_runsTo_warn (base = [] ∧ continuation ≠ []) _ _
    exact ⟨_, runs.bind (runsToo.bind last)⟩

/-- An exception behind an exception is one more part of it. -/
theorem readInto_chained (r : Reader) (log : List Diagnostic) (station : UInt32)
    (partialLock : Bool) (s t u : Text) (conditions : List Condition) (left : Sequential t)
    (right : Sequential u) :
    (r.readInto log { station, partialLock } (s ++ '但' :: t ++ '但' :: u)).1 = .ok conditions ↔
      (r.readInto log { station, partialLock } (s ++ '但' :: t ++ ' ' :: u)).1 =
        .ok conditions := by
  have shallow : Context.depth { station, partialLock } ≤ r.options.depthLimit := Nat.zero_le _
  have joined : s ++ '但' :: t ++ ' ' :: u = s ++ '但' :: (t ++ ' ' :: u) := by simp
  rw [joined, readInto_eq_ok_iff, readInto_eq_ok_iff,
    gives_exception_iff shallow right.toUndivided,
    gives_exception_iff shallow (left.spaced right).toUndivided]
  simp only [gives_exception_iff shallow left.toUndivided, gives_spaced_iff shallow left right]
  constructor
  · rintro ⟨_, second, ⟨base, first, before, after, rfl⟩, behind, rfl⟩
    exact ⟨base, first ++ second, before, ⟨first, second, after, behind, rfl⟩,
      continueWith_continueWith⟩
  · rintro ⟨base, _, before, ⟨first, second, after, behind, rfl⟩, rfl⟩
    exact ⟨_, second, ⟨base, first, before, after, rfl⟩, behind, continueWith_continueWith.symm⟩

def chainedContinuation : List Condition :=
  [.choice "X又はY".toList 0 false [.ofLetter 'X' 0 false [], .ofLetter 'Y' 0 false []],
    { Condition.ofLetter 'D' 0 false [] with reverse := true }, .ofLetter 'E' 0 true [],
    { Condition.ofLetter 'F' 0 false [] with category := .timer },
    { Condition.ofLetter 'G' 0 false [] with reverse := true },
    { Condition.ofLetter 'H' 0 false [] with summary := true }]

theorem readInto_chained_choice :
    ∃ s t u conditions, s = "{A又はB}C但X又はY".toList ∧ t = "(D)<E>".toList ∧
      u = " F秒 (G)((H))".toList ∧ Sequential t ∧ Sequential u ∧
      conditions = [.choice "A又はB".toList 0 false
        [.ofLetter 'A' 0 false chainedContinuation, .ofLetter 'B' 0 false chainedContinuation],
        .ofLetter 'C' 0 false []] ∧
      (readInto ⟨.empty, {}⟩ [] {} (s ++ '但' :: t ++ '但' :: u)).1 = .ok conditions ∧
      (readInto ⟨.empty, {}⟩ [] {} (s ++ '但' :: t ++ ' ' :: u)).1 = .ok conditions := by
  let s : Text := "{A又はB}C但X又はY".toList
  let t : Text := "(D)<E>".toList
  let u : Text := " F秒 (G)((H))".toList
  let conditions : List Condition := [.choice "A又はB".toList 0 false
    [.ofLetter 'A' 0 false chainedContinuation, .ofLetter 'B' 0 false chainedContinuation],
    .ofLetter 'C' 0 false []]
  have single : ∀ {x}, contains alternativeMark x = false → ¬ alternativeMark <:+: x := by
    intro x absent found
    rw [(contains_eq_true_iff (by simp [alternativeMark])).mpr found] at absent
    contradiction
  have left : Sequential t := ⟨⟨by decide, by decide, by decide⟩, single (by decide)⟩
  have right : Sequential u := ⟨⟨by decide, by decide, by decide⟩, single (by decide)⟩
  have chained : (readInto ⟨.empty, {}⟩ [] {} (s ++ '但' :: t ++ '但' :: u)).1 = .ok conditions :=
    Except.toOption_eq_some_iff.mp (by decide +kernel)
  exact ⟨s, t, u, conditions, rfl, rfl, rfl, left, right, rfl, chained,
    (readInto_chained ⟨.empty, {}⟩ [] 0 false s t u conditions left right).mp chained⟩

end Reader

end SignalBox
