import SignalBox.Proofs.Formula.Operand
import SignalBox.Proofs.RouteLock

/-! Where a diagnostic says that something stands, it stands. Errors and findings name bytes of the
text that the reading was started on, however deep the operand is that they come from, and names are
found from left to right. -/

namespace SignalBox

open Text Formula Formula.Reading

section Places

variable {p q : Piece} {s mark : Text} {e : Formula.Error} {d : Diagnostic}

namespace Formula

theorem Shape.delimiter (shape : Shape s (.malformed mark)) (inked : s.isBlank = false) :
    mark ≠ [] ∧ mark <:+: s := by
  cases shape with
  | @groupUnopened front after => exact ⟨List.cons_ne_nil _ _, front, after, by simp⟩
  | @stationUnopened n front after positive =>
      exact ⟨(copies_ne_nil_iff (List.cons_ne_nil _ _)).mpr positive, front, after,
        by rw [copies_singleton]⟩
  | @lockUnopened front after => exact ⟨List.cons_ne_nil _ _, front, after, by simp⟩
  | decoratedUnclosed _ _ found => exact ⟨List.cons_ne_nil _ _, found⟩
  | @nameless _ decoration token _ _ _ stripped blank =>
      have text := Decoration.wrap_strip s
      rw [stripped] at text
      cases decoration with
      | plain =>
          rw [Decoration.wrap] at text
          rw [← text, blank] at inked
          contradiction
      | reverse =>
          refine ⟨List.cons_ne_nil _ _, ['('] ++ token, [], ?_⟩
          rw [List.append_nil]
          exact text
      | summary =>
          refine ⟨List.cons_ne_nil _ _, ['(', '('] ++ token, [], ?_⟩
          rw [List.append_nil]
          exact text

/-- The blamed delimiter is a part of the fragment, and the fragment is a part of the whole. -/
def Error.Located (whole : Piece) : Formula.Error → Prop
  | .malformed fragment delimiter position =>
      delimiter ≠ [] ∧ ∃ start, Piece.Within ⟨position, delimiter⟩ ⟨start, fragment⟩ ∧
        Piece.Within ⟨start, fragment⟩ whole
  | .tooDeep _ fragment =>
      fragment.isBlank = false ∧ ∃ start, Piece.Within ⟨start, fragment⟩ whole

theorem Error.Located.mono (located : e.Located p) (within : p.Within q) : e.Located q := by
  cases e with
  | malformed fragment delimiter position =>
      obtain ⟨nonempty, start, occurs, inside⟩ := located
      exact ⟨nonempty, start, occurs, inside.trans within⟩
  | tooDeep limit fragment =>
      obtain ⟨inked, start, inside⟩ := located
      exact ⟨inked, start, inside.trans within⟩

end Formula

namespace Diagnostic

/-- An unclassified name is named with its decoration, a detached exception with its mark. -/
def Located (whole : Piece) (d : Diagnostic) : Prop :=
  match d.kind with
  | .unclassifiedName => ∃ position decoration, d.position? = some position ∧
      Piece.Within ⟨position, Decoration.wrap decoration d.fragment⟩ whole
  | .detachedException => ∃ position, d.position? = some position ∧
      Piece.Within ⟨position, exceptionMark ++ d.fragment⟩ whole
  | .malformed => ∃ e, { d with clause? := none } = .ofError e ∧ e.Located whole
  | .tooDeep => ∃ e, { d with clause? := none } = .ofError e ∧ e.Located whole

theorem Located.mono (located : d.Located p) (within : p.Within q) : d.Located q := by
  rw [Located] at located ⊢
  split at located
  · obtain ⟨position, decoration, named, inside⟩ := located
    exact ⟨position, decoration, named, inside.trans within⟩
  · obtain ⟨position, named, inside⟩ := located
    exact ⟨position, named, inside.trans within⟩
  · obtain ⟨e, same, inside⟩ := located
    exact ⟨e, same, inside.mono within⟩
  · obtain ⟨e, same, inside⟩ := located
    exact ⟨e, same, inside.mono within⟩

theorem Located.ofClause (located : d.Located p) (clause : Nat) :
    (d.ofClause clause).Located p :=
  located

theorem located_ofError (located : e.Located p) : (ofError e).Located p := by
  cases e with
  | malformed => exact ⟨_, rfl, located⟩
  | tooDeep => exact ⟨_, rfl, located⟩

def namePositions (findings : List Diagnostic) : List Nat :=
  (findings.filter fun d => d.kind = .unclassifiedName).filterMap Diagnostic.position?

theorem namePositions_append (xs ys : List Diagnostic) :
    namePositions (xs ++ ys) = namePositions xs ++ namePositions ys := by
  rw [namePositions, List.filter_append, List.filterMap_append]
  rfl

theorem namePositions_ofClause (clause : Nat) (findings : List Diagnostic) :
    namePositions (findings.map (ofClause clause)) = namePositions findings := by
  rw [namePositions, List.filter_map, List.filterMap_map]
  rfl

end Diagnostic

end Places

namespace Reader

variable {r : Reader} {context : Context} {s : Text} {whole p q : Piece}
  {outcome : Except Formula.Error (List Condition)} {added more : List Diagnostic}

/-- What a reading comes to tells the truth about places in the whole. -/
structure Located (whole : Piece) (outcome : Except Formula.Error (List Condition))
    (added : List Diagnostic) : Prop where
  error : ∀ e, outcome = .error e → e.Located whole
  findings : ∀ d, d ∈ added → d.Located whole
  inside : ∀ n, n ∈ Diagnostic.namePositions added → whole.offset ≤ n ∧ n < whole.stop
  rising : (Diagnostic.namePositions added).Pairwise (· < ·)

theorem Located.mono (located : Located p outcome added) (within : p.Within q) :
    Located q outcome added where
  error e failed := (located.error e failed).mono within
  findings d member := (located.findings d member).mono within
  inside n member := by
    have := located.inside n member
    have := within.offset_le
    have := within.stop_le
    omega
  rising := located.rising

theorem located_ok (whole : Piece) (conditions : List Condition) :
    Located whole (.ok conditions) [] :=
  ⟨nofun, nofun, nofun, .nil⟩

theorem located_error {e : Formula.Error} (located : e.Located whole) :
    Located whole (.error e) [] where
  error _ failed := by
    cases failed
    exact located
  findings := nofun
  inside := nofun
  rising := .nil

theorem Located.map (located : Located whole outcome added)
    (f : List Condition → List Condition) : Located whole (outcome.map f) added where
  error e failed := by
    cases outcome with
    | error e =>
        cases failed
        exact located.error e rfl
    | ok conditions => cases failed
  findings := located.findings
  inside := located.inside
  rising := located.rising

theorem located_gathered {parts : List α} {place : α → Piece}
    (within : ∀ a, a ∈ parts → (place a).Within whole)
    (ordered : parts.Pairwise fun a b => (place a).Precedes (place b))
    (gathered : Gathered (fun a => Located (place a)) parts outcome added) :
    Located whole outcome added ∧
      ∀ n, n ∈ Diagnostic.namePositions added → ∃ a, a ∈ parts ∧ (place a).offset ≤ n := by
  induction gathered with
  | nil => exact ⟨located_ok _ _, nofun⟩
  | @failed a e added rest first =>
      refine ⟨first.mono (within a List.mem_cons_self), ?_⟩
      intro n member
      exact ⟨a, List.mem_cons_self, (first.inside n member).1⟩
  | @cons a results added rest outcome more first later ih =>
      obtain ⟨precedes, ordered⟩ := List.pairwise_cons.mp ordered
      obtain ⟨behind, starts⟩ :=
        ih (fun b member => within b (List.mem_cons_of_mem _ member)) ordered
      have here := first.mono (within a List.mem_cons_self)
      refine ⟨⟨?_, ?_, ?_, ?_⟩, ?_⟩
      · intro e failed
        cases outcome with
        | ok results => cases failed
        | error e =>
            cases failed
            exact behind.error e rfl
      · exact List.forall_mem_append.mpr ⟨here.findings, behind.findings⟩
      · rw [Diagnostic.namePositions_append]
        exact List.forall_mem_append.mpr ⟨here.inside, behind.inside⟩
      · rw [Diagnostic.namePositions_append]
        refine List.pairwise_append.mpr ⟨first.rising, behind.rising, ?_⟩
        -- A name found later stands in a later part, and every earlier part has ended there.
        intro n early m late
        obtain ⟨b, member, start⟩ := starts m late
        have before := (first.inside n early).2
        exact Nat.lt_of_lt_of_le before (Nat.le_trans (precedes b member) start)
      · rw [Diagnostic.namePositions_append]
        refine List.forall_mem_append.mpr ⟨?_, ?_⟩
        · intro n early
          exact ⟨a, List.mem_cons_self, (first.inside n early).1⟩
        · intro n late
          obtain ⟨b, member, start⟩ := starts n late
          exact ⟨b, List.mem_cons_of_mem _ member, start⟩

theorem Context.offset_enter (context : Context) (o : Operand) :
    (context.enter o).offset = context.offset + o.offset := by
  rw [enter]
  cases o.place <;> rfl

def Context.piece (context : Context) (o : Operand) : Piece :=
  ⟨(context.enter o).offset, o.text⟩

theorem located_operands (context : Context) (s : Text)
    (gathered : Gathered (fun o => Located (context.piece o)) (cut s).operands outcome added) :
    Located ⟨context.offset, s⟩ outcome added := by
  have laid := laidOut_cut s
  refine (located_gathered ?_ ?_ gathered).1
  · intro o member
    rw [Context.piece, Context.offset_enter]
    exact (laid.within o member).shift context.offset
  · apply laid.ordered.imp
    intro o p precedes
    rw [Context.piece, Context.piece, Context.offset_enter, Context.offset_enter]
    simp only [Piece.Precedes, Piece.stop, Operand.piece] at precedes ⊢
    omega

theorem located_blame {delimiter : Text} (context : Context) (nonempty : delimiter ≠ [])
    (occurs : delimiter <:+: s) : (blame context s delimiter).Located ⟨context.offset, s⟩ := by
  rw [blame]
  cases found : cutLast? delimiter s with
  | none => exact absurd occurs ((cutLast?_eq_none_iff nonempty).mp found)
  | some x =>
      obtain ⟨token, text⟩ := cutLast?_parts found
      refine ⟨nonempty, context.offset, ⟨x.before, x.after, ?_, rfl⟩, .refl _⟩
      rw [← token]
      exact text

theorem located_name (r : Reader) (context : Context) {decoration : Decoration} {token : Text}
    (found : cut s = .name decoration token) (condition : Condition) :
    Located ⟨context.offset, s⟩ (.ok [condition]) (r.nameFindings context token) := by
  rw [nameFindings]
  split
  · have shape := shape_cut s
    rw [found] at shape
    cases shape with
    | name word unlocked alone stripped named =>
        have text := Decoration.wrap_strip s
        rw [stripped] at text
        refine ⟨(located_ok _ _).error, ?_, ?_, List.pairwise_singleton ..⟩
        · intro d member
          rw [List.mem_singleton.mp member]
          exact ⟨context.offset, decoration, rfl, [], [], by simp [unclassifiedName, text], rfl⟩
        · intro n member
          have start : n = context.offset := List.mem_singleton.mp member
          have inked : s ≠ [] := by
            rintro rfl
            cases stripped
            contradiction
          have := byteLength_pos inked
          simp only [Piece.stop, start]
          omega
  · exact located_ok _ _

theorem located_detached {base continuation : Operand} (context : Context)
    (found : cut s = .exception base continuation) :
    (detachedException context s base continuation).Located ⟨context.offset, s⟩ := by
  have shape := shape_cut s
  rw [found] at shape
  cases shape with
  | @exception after before =>
      refine ⟨context.offset + byteLength before, rfl, before, [], ?_, rfl⟩
      simp [detachedException, exceptionMark]

theorem Located.append_exception {base continuation : Operand} {conditions : List Condition}
    (located : Located ⟨context.offset, s⟩ (.ok conditions) added)
    (found : cut s = .exception base continuation) (before after result : List Condition) :
    Located ⟨context.offset, s⟩ (.ok result)
      (added ++ exceptionFindings context s base continuation before after) := by
  rw [exceptionFindings]
  split
  · have silent : Diagnostic.namePositions
        (added ++ [detachedException context s base continuation]) =
          Diagnostic.namePositions added := by
      rw [Diagnostic.namePositions_append]
      exact List.append_nil _
    refine ⟨(located_ok _ _).error, ?_, ?_, ?_⟩
    · exact List.forall_mem_append.mpr
        ⟨located.findings, List.forall_mem_singleton.mpr (located_detached context found)⟩
    · rw [silent]
      exact located.inside
    · rw [silent]
      exact located.rising
  · rw [List.append_nil]
    exact ⟨(located_ok _ _).error, located.findings, located.inside, located.rising⟩

theorem Concludes.located (concludes : r.Concludes context s outcome added) :
    Located ⟨context.offset, s⟩ outcome added := by
  refine concludes.induction (motive := fun context s outcome added =>
    Located ⟨context.offset, s⟩ outcome added) ?_
  intro context s outcome added step
  have parts : r.Step (fun place t => Located ⟨place.offset, t⟩) context s outcome added :=
    step.mono fun _ _ _ _ inside => inside.2
  have operands : Gathered (fun o => Located (context.piece o)) (cut s).operands outcome added →
      Located ⟨context.offset, s⟩ outcome added := located_operands context s
  cases parts with
  | blank => exact located_ok _ _
  | deep inked => exact located_error ⟨inked, context.offset, .refl _⟩
  | malformed inked found =>
      obtain ⟨nonempty, occurs⟩ := (found ▸ shape_cut s).delimiter inked
      exact located_error (located_blame context nonempty occurs)
  | name _ found => exact located_name r context found _
  | sequence _ found each =>
      rw [found] at operands
      exact operands each
  | alternatives _ found each =>
      have branches := located_operands context s (by rw [found]; exact each)
      exact branches.map _
  | base _ found failed =>
      rw [found] at operands
      exact operands (.failed failed)
  | continuation _ found first failed =>
      rw [found] at operands
      exact operands (.second_failed first failed)
  | exception _ found first second =>
      have both : Gathered (fun o => Located (context.piece o)) [_, _] _ _ := .pair first second
      have sides := located_operands context s (by rw [found]; exact both)
      rw [← List.append_assoc]
      exact sides.append_exception found _ _ _

theorem located_report (r : Reader) (s : Text) :
    (∀ d, d ∈ (r.report s).diagnostics → d.Located ⟨0, s⟩) ∧
      (Diagnostic.namePositions (r.report s).diagnostics).Pairwise (· < ·) := by
  obtain ⟨outcome, added, concludes, _⟩ := r.exists_concludes {} s
  have located := concludes.located
  rw [report, concludes []]
  cases outcome with
  | ok conditions => exact ⟨located.findings, located.rising⟩
  | error e =>
      have silent : Diagnostic.namePositions [Diagnostic.ofError e] = [] := by cases e <;> rfl
      have error := Diagnostic.located_ofError (located.error e rfl)
      refine ⟨List.forall_mem_append.mpr
        ⟨located.findings, List.forall_mem_singleton.mpr error⟩, ?_⟩
      dsimp only
      rw [Diagnostic.namePositions_append, silent, List.append_nil]
      exact located.rising

/-- Places are bytes of the formula, and in a row bytes of the clause that the diagnostic names. -/
theorem readInto_located (r : Reader) :
    (∀ log station partialLock s, ∃ added,
      (r.readInto log { station, partialLock } s).2 = log ++ added ∧
        Located ⟨0, s⟩ (r.readInto log { station, partialLock } s).1 added) ∧
    ∀ s,
      (∀ d, d ∈ (r.routeLock s).diagnostics → ∃ before clause after,
        RouteLock.clauses s = before ++ clause :: after ∧ d.clause? = some before.length) ∧
      ∀ before clause after, RouteLock.clauses s = before ++ clause :: after →
        (∀ d, d ∈ (r.routeLock s).diagnostics → d.clause? = some before.length →
          d.Located ⟨0, clause⟩) ∧
        (Diagnostic.namePositions ((r.routeLock s).diagnostics.filter
          fun d => d.clause? = some before.length)).Pairwise (· < ·) := by
  refine ⟨?_, ?_⟩
  · intro log station partialLock s
    obtain ⟨outcome, added, concludes, _⟩ := r.exists_concludes { station, partialLock } s
    rw [concludes log]
    exact ⟨added, rfl, concludes.located⟩
  · intro s
    refine ⟨fun d => exists_clause_of_mem_routeLock, ?_⟩
    intro before clause after parts
    have own := filter_routeLock (r := r) parts
    obtain ⟨located, rising⟩ := r.located_report clause
    constructor
    · intro d member tagged
      have filtered : d ∈ (r.routeLock s).diagnostics.filter
          fun d => d.clause? = some before.length := by simp [member, tagged]
      rw [own] at filtered
      obtain ⟨e, found, rfl⟩ := List.mem_map.mp filtered
      exact (located e found).ofClause _
    · rw [own, Diagnostic.namePositions_ofClause]
      exact rising

theorem readInto_located_multibyte :
    Located ⟨0, "甲{乙]}".toList⟩ (.error (.malformed "乙]".toList [']'] 7))
        [unclassifiedName {} ['甲']] ∧
      RouteLock.clauses "(甲)(乙])".toList = [['甲'], "乙]".toList] ∧
      ∀ d, d ∈ (routeLock ⟨.empty, {}⟩ "(甲)(乙])".toList).diagnostics → d.clause? = some 1 →
        d.Located ⟨0, "乙]".toList⟩ := by
  obtain ⟨alone, rows⟩ := readInto_located ⟨.empty, {}⟩
  obtain ⟨added, later, located⟩ := alone [] 0 false "甲{乙]}".toList
  have failed : (readInto ⟨.empty, {}⟩ [] {} "甲{乙]}".toList).1 =
      .error (.malformed "乙]".toList [']'] 7) := Except.eq_error_of_match (by decide +kernel)
  have found : (readInto ⟨.empty, {}⟩ [] {} "甲{乙]}".toList).2 = [unclassifiedName {} ['甲']] := by
    decide +kernel
  have parts : RouteLock.clauses "(甲)(乙])".toList = [['甲']] ++ "乙]".toList :: [] := by
    decide +kernel
  refine ⟨?_, parts, ((rows _).2 _ _ _ parts).1⟩
  rw [failed] at located
  rw [found, List.nil_append] at later
  exact later ▸ located

end Reader

end SignalBox
