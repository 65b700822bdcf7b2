import SignalBox.Proofs.Formula.Shape
import SignalBox.Proofs.Reading
import SignalBox.Proofs.Text.SplitOn

/-! One step of a reading: what is read next, and from which place. How deep the place is matters
to the limit alone. -/

namespace SignalBox

open Text Formula

theorem Text.isBlank_eq_false_of_mem {c : Char} {s : Text} (member : c ∈ s)
    (inked : isWhite c = false) : s.isBlank = false :=
  List.all_eq_false.mpr ⟨c, member, Bool.not_eq_true _ ▸ inked⟩

theorem Text.isBlank_part {s t : Text} (part : t <:+: s) (blank : s.isBlank = true) :
    t.isBlank = true :=
  List.all_eq_true.mpr fun c member => List.all_eq_true.mp blank c (part.subset member)

theorem Formula.Reading.gather_congr {f g : α → Reading (List β)} {xs : List α}
    (each : ∀ a, a ∈ xs → f a = g a) : gather f xs = gather g xs := by
  induction xs with
  | nil => rfl
  | cons a xs ih =>
      rw [gather, gather, each a List.mem_cons_self,
        ih fun b member => each b (List.mem_cons_of_mem _ member)]

namespace Reader

def Context.behind (context : Context) (t : Text) : Context :=
  { context with offset := context.offset + byteLength t }

variable {r : Reader} {context : Context} {s : Text}

/-- The scope of an operand, whatever it holds and wherever it stands. -/
def Context.into (context : Context) (place : Place) : Context :=
  context.enter ⟨0, [], place⟩

theorem Context.enter_eq (context : Context) (o : Operand) :
    context.enter o = { context.into o.place with offset := context.offset + o.offset } := by
  rw [into, enter, enter]
  cases o.place <;> rfl

theorem Context.into_offset (context : Context) (offset : Nat) (place : Place) (more : Nat) :
    { ({ context with offset } : Context).into place with offset := more } =
      { context.into place with offset := more } := by
  cases place <;> rfl

/-- Wherever the text stands in a formula, it is read as these conditions. -/
def Gives (r : Reader) (context : Context) (s : Text) (conditions : List Condition) : Prop :=
  ∀ offset, ∃ added, Reading.RunsTo (r.read { context with offset } s) (.ok conditions) added

section Gives

variable {operands : List Operand} {results : List (List Condition)} {separator : Text}
  {place : Place} {conditions : List Condition}

theorem gives_blank (blank : s.isBlank = true) : r.Gives context s [] := by
  intro offset
  refine ⟨[], ?_⟩
  rw [read_eq, if_pos blank]
  exact Reading.runsTo_pure []

theorem gives_name {decoration : Decoration} {token : Text} (inked : s.isBlank = false)
    (shallow : context.depth ≤ r.options.depthLimit) (found : cut s = .name decoration token) :
    r.Gives context s [r.namedCondition context decoration token] := by
  intro offset
  obtain ⟨outcome, added, run, rfl, _⟩ := r.ends_readName { context with offset } decoration token
  refine ⟨added ++ [], ?_⟩
  rw [read_eq, inked, if_neg Bool.false_ne_true, if_neg (Nat.not_lt.mpr shallow), found]
  exact Reading.RunsTo.bind run (Reading.runsTo_pure _)

theorem exists_runsTo_operands (offset : Nat)
    (each : List.Forall₂ (fun o => r.Gives (context.into o.place) o.text) operands results) :
    ∃ added, Reading.RunsTo
      (Reading.gather (fun o => r.read (Context.enter { context with offset } o) o.text) operands)
      (.ok results.flatten) added := by
  apply Reading.exists_runsTo_gather
  refine each.imp fun o conditions gives => ?_
  rw [Context.enter_eq, Context.into_offset]
  exact gives _

theorem gives_sequence (inked : s.isBlank = false)
    (shallow : context.depth ≤ r.options.depthLimit) (found : cut s = .sequence operands)
    (each : List.Forall₂ (fun o => r.Gives (context.into o.place) o.text) operands results) :
    r.Gives context s results.flatten := by
  intro offset
  obtain ⟨added, run⟩ := exists_runsTo_operands offset each
  refine ⟨added, ?_⟩
  rw [read_eq, inked, if_neg Bool.false_ne_true, if_neg (Nat.not_lt.mpr shallow), found]
  exact run

theorem gives_alternatives (inked : s.isBlank = false)
    (shallow : context.depth ≤ r.options.depthLimit) (found : cut s = .alternatives operands)
    (each : List.Forall₂ (fun o => r.Gives (context.into o.place) o.text) operands results) :
    r.Gives context s
      [Condition.choice s context.station context.partialLock results.flatten] := by
  intro offset
  obtain ⟨added, run⟩ := exists_runsTo_operands offset each
  refine ⟨added ++ [], ?_⟩
  rw [read_eq, inked, if_neg Bool.false_ne_true, if_neg (Nat.not_lt.mpr shallow), found]
  exact run.bind (Reading.runsTo_pure _)

theorem gives_enclosed {x : Enclosure} {outer inner : Place} {before between after : List Condition}
    (inked : s.isBlank = false) (shallow : context.depth ≤ r.options.depthLimit)
    (found : cut s = .sequence (Operand.ofEnclosure outer inner x))
    (first : r.Gives (context.into outer) x.before before)
    (second : r.Gives (context.into inner) x.between between)
    (third : r.Gives (context.into outer) x.after after) :
    r.Gives context s (before ++ between ++ after) := by
  have gives := gives_sequence inked shallow found (.cons first (.cons second (.cons third .nil)))
  simpa using gives

def GivesPieces (r : Reader) (context : Context) (separator s : Text)
    (conditions : List Condition) : Prop :=
  ∃ results, List.Forall₂ (r.Gives context) (splitOn separator s) results ∧
    results.flatten = conditions

theorem givesPieces_whole (nonempty : separator ≠ []) (absent : ¬ separator <:+: s)
    (gives : r.Gives context s conditions) : r.GivesPieces context separator s conditions := by
  refine ⟨[conditions], ?_, List.flatten_singleton⟩
  rw [splitOn_eq_singleton nonempty absent]
  exact .cons gives .nil

theorem GivesPieces.append {c : Char} {t : Text} {others : List Condition}
    (starts : separator.head? = some c) (apart : c ∉ separator.tail)
    (left : r.GivesPieces context separator s conditions)
    (right : r.GivesPieces context separator t others) :
    r.GivesPieces context separator (s ++ separator ++ t) (conditions ++ others) := by
  obtain ⟨results, first, rfl⟩ := left
  obtain ⟨more, second, rfl⟩ := right
  refine ⟨results ++ more, ?_, List.flatten_append⟩
  rw [splitOn_append_separator starts apart]
  exact List.rel_append first second

theorem GivesPieces.each (gives : r.GivesPieces (context.into place) separator s conditions) :
    ∃ results, List.Forall₂ (fun o => r.Gives (context.into o.place) o.text)
      ((pieces separator s).map (Operand.ofPiece place)) results ∧
        results.flatten = conditions := by
  obtain ⟨results, each, same⟩ := gives
  refine ⟨results, ?_, same⟩
  rw [← map_text_ofPiece separator s place, List.map_map, List.forall₂_map_left_iff] at each
  exact List.forall₂_map_left_iff.mpr each

theorem Gives.readInto {log : List Diagnostic} (gives : r.Gives context s conditions) :
    (r.readInto log context s).1 = .ok conditions := by
  obtain ⟨added, run⟩ := gives context.offset
  exact congrArg Prod.fst (run log)

end Gives

theorem read_enclosure {x : Enclosure} {place : Place} (inked : s.isBlank = false)
    (shallow : context.depth ≤ r.options.depthLimit)
    (found : cut s = .sequence (Operand.ofEnclosure .beside place x)) :
    r.read context s = (do
      let before ← r.read context x.before
      let between ← r.read
        ((context.behind (x.before ++ x.opening)).enter ⟨0, x.between, place⟩) x.between
      let after ← r.read
        (context.behind (x.before ++ x.opening ++ x.between ++ x.closing)) x.after
      pure (before ++ between ++ after)) := by
  have between : context.enter ⟨x.betweenAt, x.between, place⟩ =
      (context.behind (x.before ++ x.opening)).enter ⟨0, x.between, place⟩ := by
    simp [Context.enter, Context.behind, Enclosure.betweenAt, Enclosure.openAt]
  have after : context.enter ⟨x.afterAt, x.after, .beside⟩ =
      context.behind (x.before ++ x.opening ++ x.between ++ x.closing) := by
    simp [Context.enter, Context.behind, Enclosure.afterAt, Enclosure.closeAt,
      Enclosure.betweenAt, Enclosure.openAt, Nat.add_assoc]
  rw [read_eq, inked, if_neg Bool.false_ne_true, if_neg (Nat.not_lt.mpr shallow), found]
  simp only [Operand.ofEnclosure, Reading.gather, between, after, bind_assoc, pure_bind,
    List.append_nil, List.append_assoc]
  rfl

theorem read_before_exception {before after : Text}
    (shallow : context.depth ≤ r.options.depthLimit) (undivided : Undivided after) :
    r.read context (before ++ '但' :: after) = (do
      let base ← r.read context before
      let continuation ← r.read (context.behind (before ++ ['但'])) after
      if base = [] ∧ continuation ≠ [] then
        Reading.warn (detachedException context (before ++ '但' :: after)
          ⟨0, before, .beside⟩ ⟨byteLength (before ++ ['但']), after, .beside⟩)
      pure (continueWith continuation base)) := by
  have inked : (before ++ '但' :: after).isBlank = false :=
    isBlank_eq_false_of_mem (c := '但') (by simp) (by decide)
  have continuation : (⟨before, exceptionMark, after⟩ : Split).afterAt =
      byteLength (before ++ ['但']) := (byteLength_append _ _).symm
  rw [read_eq, inked, if_neg Bool.false_ne_true, if_neg (Nat.not_lt.mpr shallow),
    cut_exception undivided, Cut.exceptionAt, continuation]
  rfl

def Context.atDepth (context : Context) (depth : Nat) : Context :=
  { context with depth := depth }

theorem Context.atDepth_enter (context : Context) (depth : Nat) (o : Operand) :
    ∃ e, e ≤ depth + 1 ∧ (context.atDepth depth).enter o = (context.enter o).atDepth e := by
  unfold Context.enter
  cases o.place with
  | beside => exact ⟨depth, Nat.le_succ _, rfl⟩
  | inside => exact ⟨depth + 1, Nat.le_refl _, rfl⟩
  | inStation n => exact ⟨depth + 1, Nat.le_refl _, rfl⟩
  | locked => exact ⟨depth + 1, Nat.le_refl _, rfl⟩
  | unlocked => exact ⟨depth, Nat.le_succ _, rfl⟩

/-- Two depths that both leave room for the text make no difference to its reading. -/
theorem read_atDepth (r : Reader) {d e : Nat} (context : Context) (s : Text)
    (room : d + byteLength s ≤ r.options.depthLimit)
    (roomToo : e + byteLength s ≤ r.options.depthLimit) :
    r.read (context.atDepth d) s = r.read (context.atDepth e) s := by
  generalize size : byteLength s = n
  induction n using Nat.strongRecOn generalizing context s d e with
  | ind n ih =>
      have operand : ∀ o, o ∈ (cut s).operands →
          r.read ((context.atDepth d).enter o) o.text =
            r.read ((context.atDepth e).enter o) o.text := by
        intro o member
        have smaller := byteLength_lt_of_mem_cut member
        obtain ⟨below, belowLe, enter⟩ := context.atDepth_enter d o
        obtain ⟨belowToo, belowTooLe, enterToo⟩ := context.atDepth_enter e o
        rw [enter, enterToo]
        exact ih _ (size ▸ smaller) _ _ (by omega) (by omega) rfl
      have shallow : ¬ r.options.depthLimit < (context.atDepth d).depth := by
        change ¬ r.options.depthLimit < d
        omega
      have shallowToo : ¬ r.options.depthLimit < (context.atDepth e).depth := by
        change ¬ r.options.depthLimit < e
        omega
      rw [read_eq, read_eq, if_neg shallow, if_neg shallowToo]
      cases found : cut s with
      | malformed delimiter => rfl
      | name decoration token => rfl
      | sequence operands =>
          rw [found, Cut.operands] at operand
          dsimp only
          rw [Reading.gather_congr operand]
      | alternatives operands =>
          rw [found, Cut.operands] at operand
          dsimp only
          rw [Reading.gather_congr operand]
          rfl
      | exception base continuation =>
          dsimp only
          rw [operand base (by simp [found, Cut.operands]),
            operand continuation (by simp [found, Cut.operands])]
          rfl

theorem read_deeper (r : Reader) (context : Context) (s : Text)
    (room : context.depth + 1 + byteLength s ≤ r.options.depthLimit) :
    r.read (context.atDepth (context.depth + 1)) s = r.read context s :=
  r.read_atDepth context s room (by omega)

end Reader

end SignalBox
