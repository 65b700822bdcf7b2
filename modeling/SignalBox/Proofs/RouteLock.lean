import SignalBox.RouteLock
import SignalBox.Proofs.Report
import SignalBox.Proofs.Text.SplitOn
import SignalBox.Proofs.Text.Trim

/-! A row of clauses comes apart into its clauses, whatever parentheses they have themselves, and
each clause is read as if it stood alone. -/

namespace SignalBox

open Text Formula

namespace RouteLock

inductive Gap where
  | tight
  | loose
deriving DecidableEq, Repr

def Gap.mark : Gap → Text
  | .tight => separator
  | .loose => looseSeparator

theorem looseSeparator_ne_nil : looseSeparator ≠ [] :=
  List.cons_ne_nil _ _

def row (first : Text) : List (Gap × Text) → Text
  | [] => first
  | (gap, next) :: rest => first ++ (gap.mark ++ row next rest)

/-- A clause that has ink and none of the marks that stand between clauses. -/
structure Whole (clause : Text) : Prop where
  inked : clause.isBlank = false
  tight : ¬ separator <:+: clause
  loose : ¬ looseSeparator <:+: clause

section Rows

variable {first : Text} {rest : List (Gap × Text)} {texts : List Text}

theorem intercalate_modifyHead (mark front : Text) (nonempty : texts ≠ []) :
    mark.intercalate (texts.modifyHead (front ++ ·)) = front ++ mark.intercalate texts := by
  cases texts with
  | nil => contradiction
  | cons t texts =>
      cases texts with
      | nil => simp [List.intercalate_singleton]
      | cons u texts => simp [List.intercalate_cons_cons]

theorem splitOn_tight (s : Text) :
    splitOn looseSeparator (separator ++ s) =
      (splitOn looseSeparator s).modifyHead (separator ++ ·) := by
  have opening : splitOn looseSeparator ('(' :: s) =
      (splitOn looseSeparator s).modifyHead ('(' :: ·) :=
    splitOn_cons looseSeparator_ne_nil (by simp [looseSeparator])
  have closing : splitOn looseSeparator (')' :: '(' :: s) =
      (splitOn looseSeparator ('(' :: s)).modifyHead (')' :: ·) :=
    splitOn_cons looseSeparator_ne_nil (by simp [looseSeparator])
  rw [separator, List.cons_append, List.cons_append, List.nil_append, closing, opening,
    List.modifyHead_modifyHead]
  rfl

theorem intercalate_splitOn_row
    (wholes : ∀ c, c ∈ first :: rest.map Prod.snd → Whole c) :
    separator.intercalate (splitOn looseSeparator (row first rest)) =
      separator.intercalate (first :: rest.map Prod.snd) := by
  induction rest generalizing first with
  | nil =>
      have single : splitOn looseSeparator first = [first] :=
        splitOn_eq_singleton looseSeparator_ne_nil (wholes first List.mem_cons_self).loose
      rw [row, single]
      rfl
  | cons next rest ih =>
      obtain ⟨gap, second⟩ := next
      -- A mark has no closing parenthesis but its first, so no clause lends its end to a mark.
      have apart : splitOn looseSeparator (first ++ (gap.mark ++ row second rest)) =
          (splitOn looseSeparator (gap.mark ++ row second rest)).modifyHead (first ++ ·) := by
        apply splitOn_append (d := ')') looseSeparator_ne_nil
          (wholes first List.mem_cons_self).loose
        · cases gap <;> rfl
        · simp [looseSeparator]
      have tightened := ih fun c member => wholes c (List.mem_cons_of_mem _ member)
      have pieces : splitOn looseSeparator (row second rest) ≠ [] := splitOn_ne_nil _ _
      rw [row, apart, intercalate_modifyHead _ _ (splitOn_ne_nil _ _), List.map_cons,
        List.intercalate_cons_cons, ← tightened, List.append_assoc]
      cases gap with
      | tight => rw [Gap.mark, splitOn_tight, intercalate_modifyHead _ _ pieces]
      | loose =>
          have gone : splitOn looseSeparator (Gap.loose.mark ++ row second rest) =
              [] :: splitOn looseSeparator (row second rest) :=
            splitOn_self_append looseSeparator_ne_nil _
          rw [gone, List.intercalate_cons_of_ne_nil pieces, List.nil_append]

theorem clauses_row {around behind : Text} (blankBefore : around.isBlank = true)
    (blankAfter : behind.isBlank = true)
    (wholes : ∀ c, c ∈ first :: rest.map Prod.snd → Whole c) :
    clauses (around ++ ('(' :: row first rest ++ [')']) ++ behind) =
      first :: rest.map Prod.snd := by
  have trimmed : trim (around ++ ('(' :: row first rest ++ [')']) ++ behind) =
      '(' :: row first rest ++ [')'] := by
    apply trim_around blankBefore blankAfter
    · intro c starts
      cases starts
      rfl
    · intro c ends
      rw [List.getLast?_append] at ends
      cases ends
      rfl
  have unwrapped : unwrap? ['('] [')'] ('(' :: row first rest ++ [')']) = some (row first rest) :=
    unwrap?_eq_some_iff.mpr rfl
  rw [clauses, trimmed, unwrapped]
  dsimp only [Option.getD_some]
  have split : splitOn separator (separator.intercalate (first :: rest.map Prod.snd)) =
      first :: rest.map Prod.snd :=
    splitOn_intercalate rfl (by simp [separator]) fun c member => (wholes c member).tight
  rw [intercalate_splitOn_row wholes, split, List.filter_eq_self]
  intro c member
  rw [(wholes c member).inked]
  rfl

end Rows

end RouteLock

namespace Reader

variable {r : Reader} {s clause : Text} {before after : List Text} {error : Formula.Error}

theorem addClause_readInto (r : Reader) (report : Report) (index : Nat) (clause : Text) :
    report.addClause index (r.readInto [] {} clause) =
      .concat [report, (r.report clause).ofClause index] := by
  rw [Reader.report]
  rcases r.readInto [] {} clause with ⟨e | conditions, log⟩ <;>
    simp [Report.addClause, Report.concat, Report.ofClause]

def numbered (r : Reader) (clauses : List (Text × Nat)) : Report :=
  .concat (clauses.map fun (clause, index) => (r.report clause).ofClause index)

theorem foldl_addClause (r : Reader) (report : Report) (clauses : List (Text × Nat)) :
    clauses.foldl
        (fun report (clause, index) => report.addClause index (r.readInto [] {} clause)) report =
      .concat [report, r.numbered clauses] := by
  induction clauses generalizing report with
  | nil => simp [numbered, Report.concat]
  | cons next clauses ih =>
      obtain ⟨clause, index⟩ := next
      rw [List.foldl_cons, ih]
      dsimp only
      rw [addClause_readInto]
      simp [numbered, Report.concat]

theorem routeLock_eq_numbered (r : Reader) (s : Text) :
    r.routeLock s = r.numbered (RouteLock.clauses s).zipIdx := by
  rw [routeLock, foldl_addClause]
  simp [Report.concat, numbered]

theorem conditions_numbered (r : Reader) (clauses : List (Text × Nat)) :
    (r.numbered clauses).conditions =
      (clauses.map Prod.fst).flatMap fun clause => (r.report clause).conditions := by
  simp [numbered, Report.concat, Report.ofClause, List.flatMap_map]

theorem conditions_routeLock (r : Reader) (s : Text) :
    (r.routeLock s).conditions =
      (RouteLock.clauses s).flatMap fun clause => (r.report clause).conditions := by
  rw [routeLock_eq_numbered, conditions_numbered, List.zipIdx_map_fst]

theorem filter_numbered_elsewhere {clauses : List (Text × Nat)} {index : Nat}
    (elsewhere : ∀ x, x ∈ clauses → x.2 ≠ index) :
    ((r.numbered clauses).diagnostics.filter fun d => d.clause? = some index) = [] := by
  rw [List.filter_eq_nil_iff]
  intro d member
  simp only [numbered, Report.concat, List.mem_flatMap, List.mem_map] at member
  obtain ⟨_, ⟨x, listed, rfl⟩, found⟩ := member
  obtain ⟨e, _, rfl⟩ := List.mem_map.mp found
  simpa [Diagnostic.ofClause] using elsewhere x listed

theorem numbered_append (r : Reader) (clauses others : List (Text × Nat)) :
    (r.numbered (clauses ++ others)).diagnostics =
      (r.numbered clauses).diagnostics ++ (r.numbered others).diagnostics := by
  simp [numbered, Report.concat]

theorem filter_routeLock (parts : RouteLock.clauses s = before ++ clause :: after) :
    ((r.routeLock s).diagnostics.filter fun d => d.clause? = some before.length) =
      (r.report clause).diagnostics.map (.ofClause before.length) := by
  have places : (before ++ clause :: after).zipIdx =
      before.zipIdx ++ ([(clause, before.length)] ++ after.zipIdx (before.length + 1)) := by
    rw [List.zipIdx_append, List.zipIdx_cons, Nat.zero_add]
    rfl
  have earlier : ∀ x, x ∈ before.zipIdx → x.2 ≠ before.length := by
    intro x member
    have := (List.mem_zipIdx member).2.1
    omega
  have later : ∀ x, x ∈ after.zipIdx (before.length + 1) → x.2 ≠ before.length := by
    intro x member
    have := (List.mem_zipIdx member).1
    omega
  rw [routeLock_eq_numbered, parts, places, numbered_append, numbered_append, List.filter_append,
    List.filter_append, filter_numbered_elsewhere earlier, filter_numbered_elsewhere later]
  simp [numbered, Report.concat, Report.ofClause, Diagnostic.ofClause]

theorem exists_clause_of_mem_routeLock {d : Diagnostic}
    (member : d ∈ (r.routeLock s).diagnostics) :
    ∃ before clause after, RouteLock.clauses s = before ++ clause :: after ∧
      d.clause? = some before.length := by
  rw [routeLock_eq_numbered] at member
  simp only [numbered, Report.concat, List.mem_flatMap, List.mem_map] at member
  obtain ⟨_, ⟨x, listed, rfl⟩, found⟩ := member
  obtain ⟨e, _, rfl⟩ := List.mem_map.mp found
  obtain ⟨_, bound, _⟩ := List.mem_zipIdx listed
  rw [Nat.zero_add] at bound
  refine ⟨(RouteLock.clauses s).take x.2, (RouteLock.clauses s)[x.2],
    (RouteLock.clauses s).drop (x.2 + 1), ?_, ?_⟩
  · rw [← List.drop_eq_getElem_cons bound, List.take_append_drop]
  · rw [List.length_take, Nat.min_eq_left (Nat.le_of_lt bound)]
    rfl

/-- However clauses are put in a row, they are found again, and the report of a row is that of its
clauses, each with its own index. A clause that fails leaves one error behind and no conditions. -/
theorem routeLock_eq_concat (r : Reader) :
    (∀ first rest around behind, around.isBlank = true → behind.isBlank = true →
      (∀ c, c ∈ first :: rest.map Prod.snd → RouteLock.Whole c) →
      RouteLock.clauses (around ++ ('(' :: RouteLock.row first rest ++ [')']) ++ behind) =
        first :: rest.map Prod.snd) ∧
    (∀ s, r.routeLock s = .concat ((RouteLock.clauses s).mapIdx fun index clause =>
      (r.report clause).ofClause index)) ∧
    ∀ s before clause after, RouteLock.clauses s = before ++ clause :: after →
      ((r.routeLock s).diagnostics.filter fun d => d.clause? = some before.length) =
        (r.report clause).diagnostics.map (.ofClause before.length) ∧
      ∀ error, r.parse clause = .error error →
        (r.routeLock s).conditions = (before ++ after).flatMap (fun c => (r.report c).conditions) ∧
        ((r.routeLock s).errors.filter fun d => d.clause? = some before.length) =
          [(Diagnostic.ofError error).ofClause before.length] := by
  refine ⟨?_, ?_, ?_⟩
  · intro first rest around behind blankBefore blankAfter wholes
    exact RouteLock.clauses_row blankBefore blankAfter wholes
  · intro s
    rw [routeLock_eq_numbered, numbered, List.mapIdx_eq_zipIdx_map]
  · intro s before clause after parts
    have own := filter_routeLock (r := r) parts
    refine ⟨own, ?_⟩
    intro error failed
    obtain ⟨log, report, warnings⟩ := report_of_error failed
    constructor
    · rw [conditions_routeLock, parts, List.flatMap_append, List.flatMap_cons, report,
        List.flatMap_append]
      rfl
    · have quiet :
          (log.map (Diagnostic.ofClause before.length)).filter Diagnostic.isError = [] := by
        rw [List.filter_eq_nil_iff]
        intro d member
        obtain ⟨e, logged, rfl⟩ := List.mem_map.mp member
        exact Bool.not_eq_true _ ▸ warnings e logged
      rw [Report.errors, List.filter_comm, own, report, List.map_append, List.filter_append, quiet]
      rfl

theorem routeLock_eq_concat_own_parentheses :
    RouteLock.clauses " (A)) ((B)(C])".toList = ["A)".toList, "(B".toList, "C]".toList] ∧
      (routeLock ⟨.empty, {}⟩ " (A)) ((B)(C])".toList).conditions =
        ["A)".toList, "(B".toList].flatMap (fun c => (report ⟨.empty, {}⟩ c).conditions) ∧
      ((routeLock ⟨.empty, {}⟩ " (A)) ((B)(C])".toList).errors.filter
        fun d => d.clause? = some 2) =
          [(Diagnostic.ofError (.malformed "C]".toList [']'] 1)).ofClause 2] := by
  obtain ⟨found, _, each⟩ := routeLock_eq_concat ⟨.empty, {}⟩
  have wholes : ∀ c, c ∈ "A)".toList :: [(RouteLock.Gap.loose, "(B".toList),
      (.tight, "C]".toList)].map Prod.snd → RouteLock.Whole c := by
    intro c member
    simp only [List.map_cons, List.map_nil, List.mem_cons, List.not_mem_nil, or_false] at member
    rcases member with rfl | rfl | rfl <;> exact ⟨by decide, by decide, by decide⟩
  have parts := found "A)".toList [(.loose, "(B".toList), (.tight, "C]".toList)] [' '] []
    (by decide) (by decide) wholes
  have failed : parse ⟨.empty, {}⟩ "C]".toList = .error (.malformed "C]".toList [']'] 1) :=
    Except.eq_error_of_match (by decide +kernel)
  exact ⟨parts, (each _ ["A)".toList, "(B".toList] _ [] parts).2 _ failed⟩

end Reader

end SignalBox
