import SignalBox.Proofs.Parallel
import SignalBox.Proofs.Sequence
import SignalBox.Proofs.Text.Space

/-! How many spaces a formula is written with does not matter. A formula that something binds more
loosely than a space is cut at the same places with more spaces or fewer; any other is a sequence,
and of a sequence only the words between the spaces are read. -/

namespace SignalBox

open Text Formula Formula.Reading

namespace Formula

/-- Operands that lie alike and differ in their spaces alone, wherever they stand. -/
structure Operand.Respaced (o p : Operand) : Prop where
  place : o.place = p.place
  text : stretches o.text = stretches p.text

inductive Cut.Respaced : Cut → Cut → Prop
  | sequence (each : List.Forall₂ Operand.Respaced parts others) :
      Respaced (.sequence parts) (.sequence others)
  | alternatives (each : List.Forall₂ Operand.Respaced parts others) :
      Respaced (.alternatives parts) (.alternatives others)
  | exception (first : Operand.Respaced base other) (second : Operand.Respaced continuation next) :
      Respaced (.exception base continuation) (.exception other next)
  | malformed (delimiter : Text) : Respaced (.malformed delimiter) (.malformed delimiter)

variable {s t : Text}

theorem Undivided.respaced (undivided : Undivided s) (same : stretches s = stretches t) :
    Undivided t where
  group member := undivided.group (mem_of_stretches same.symm (by decide) member)
  station member := undivided.station (mem_of_stretches same.symm (by decide) member)
  exception member := undivided.exception (mem_of_stretches same.symm (by decide) member)

theorem infix_alternativeMark_of_stretches (same : stretches s = stretches t)
    (found : alternativeMark <:+: s) : alternativeMark <:+: t :=
  infix_of_stretches same (by simp [alternativeMark]) (by decide) found

theorem Sequential.respaced (sequential : Sequential s) (same : stretches s = stretches t) :
    Sequential t :=
  ⟨sequential.toUndivided.respaced same, fun found =>
    sequential.single (infix_alternativeMark_of_stretches same.symm found)⟩

theorem respaced_pieces (same : stretches s = stretches t) (place : Place) :
    List.Forall₂ Operand.Respaced ((pieces alternativeMark s).map (Operand.ofPiece place))
      ((pieces alternativeMark t).map (Operand.ofPiece place)) := by
  have each : List.Forall₂ (fun p q => stretches p = stretches q) (splitOn alternativeMark s)
      (splitOn alternativeMark t) := splitOn_of_stretches same rfl (by decide) (by decide)
  rw [← map_text_ofPiece alternativeMark s place,
    ← map_text_ofPiece alternativeMark t place] at each
  simp only [List.forall₂_map_left_iff, List.forall₂_map_right_iff] at each ⊢
  exact each.imp fun p q text => ⟨rfl, text⟩

/-- Everything but spaces is cut at in the same way. -/
theorem cut_respaced (same : stretches s = stretches t) :
    Sequential s ∨ Cut.Respaced (cut s) (cut t) := by
  have shape := shape_cut s
  generalize cut s = c at shape ⊢
  cases shape with
  | group enclosed undivided =>
      obtain ⟨_, back, rfl, opened, behind⟩ := exists_cut_cons (by decide) same
      obtain ⟨front, inner, rfl, outside, inside⟩ := exists_cut_cons (by decide) opened
      have absent := mt (mem_of_stretches inside.symm (by decide)) enclosed
      rw [cut_group absent (undivided.respaced behind)]
      exact .inr (.sequence (.cons ⟨rfl, outside⟩ (.cons ⟨rfl, inside⟩ (.cons ⟨rfl, behind⟩ .nil))))
  | groupUnopened absent undivided =>
      obtain ⟨front, back, rfl, before, behind⟩ := exists_cut_cons (by decide) same
      have unopened := mt (mem_of_stretches before.symm (by decide)) absent
      rw [cut_group_unopened unopened (undivided.respaced behind)]
      exact .inr (.malformed _)
  | station positive ends opened undivided =>
      obtain ⟨front, back, rfl, before, behind⟩ := exists_cut_of_stretches
        (by simp [Nat.ne_of_gt positive]) (by simp) same
      obtain ⟨outer, inner, openedToo, outside, inside⟩ :=
        opened.exists_of_squeeze (by decide) before
      have endsToo := mt (getLast?_eq_some_iff_of_squeeze (by decide) before).mpr ends
      rw [cut_station positive endsToo openedToo (undivided.respaced behind)]
      exact .inr (.sequence (.cons ⟨rfl, outside⟩ (.cons ⟨rfl, inside⟩ (.cons ⟨rfl, behind⟩ .nil))))
  | @stationUnopened n _ _ positive ends unopened undivided =>
      obtain ⟨front, back, rfl, before, behind⟩ := exists_cut_of_stretches
        (by simp [Nat.ne_of_gt positive]) (by simp) same
      have unopenedToo : ∀ outer inner, ¬ LastRun '[' n front.length front outer inner := by
        intro outer inner opened
        obtain ⟨before, between, found, _⟩ := opened.exists_of_squeeze (by decide) before.symm
        exact unopened before between found
      have endsToo := mt (getLast?_eq_some_iff_of_squeeze (by decide) before).mpr ends
      rw [cut_station_unopened positive endsToo unopenedToo (undivided.respaced behind)]
      exact .inr (.malformed _)
  | exception undivided =>
      obtain ⟨front, back, rfl, before, behind⟩ := exists_cut_cons (by decide) same
      rw [cut_exception (undivided.respaced behind)]
      exact .inr (.exception ⟨rfl, before⟩ ⟨rfl, behind⟩)
  | alternatives undivided found =>
      have foundToo := infix_alternativeMark_of_stretches same found
      rw [(Shape.alternatives (undivided.respaced same) foundToo).eq_cut]
      exact .inr (.alternatives (respaced_pieces same .inside))
  | words undivided single => exact .inl ⟨undivided, single⟩
  | lock word => exact .inl word.sequential
  | lockUnopened word => exact .inl word.sequential
  | decorated word => exact .inl word.sequential
  | decoratedUnclosed word => exact .inl word.sequential
  | name word => exact .inl word.sequential
  | nameless word => exact .inl word.sequential

def Error.delimiter? : Formula.Error → Option Text
  | .malformed _ delimiter _ => some delimiter
  | .tooDeep _ _ => none

end Formula

/-- The same but for the position and for quoted text. A name that is not known is quoted as it
is. -/
def Diagnostic.Respaced (d d' : Diagnostic) : Prop :=
  d.kind = d'.kind ∧ (d.kind = .unclassifiedName → d.fragment = d'.fragment)

def Formula.Likeness.respacing : Likeness :=
  .oneByOne (fun e e' => e.delimiter? = e'.delimiter?) Diagnostic.Respaced

namespace Condition

structure Respaced (c d : Condition) : Prop where
  fields : { c with name := [], children := [] } = { d with name := [], children := [] }
  name : c.isChoice = false → c.name = d.name
  choice : c.isChoice = true → respaced c.name = respaced d.name

theorem congruence_respaced : Congruence Respaced where
  isChoice same := by
    have whole := congrArg isChoice same.fields
    exact whole
  children same := ⟨same.fields, same.name, same.choice⟩

theorem respaced_choice {s t : Text} (same : stretches s = stretches t) (station : UInt32)
    (partialLock : Bool) (branches others : List Condition) :
    Respaced (.choice s station partialLock branches) (.choice t station partialLock others) where
  fields := rfl
  name := nofun
  choice _ := congrArg ([' '].intercalate ·) same

theorem Respaced.refl (c : Condition) : Respaced c c :=
  ⟨rfl, fun _ => rfl, fun _ => rfl⟩

mutual

theorem alike_refl {agree : Condition → Condition → Prop} (refl : ∀ c, agree c c) :
    (c : Condition) → Alike agree c c
  | ⟨_, _, _, _, _, _, children⟩ => .node (refl _) (forest_alike_refl refl children)

theorem forest_alike_refl {agree : Condition → Condition → Prop} (refl : ∀ c, agree c c) :
    (cs : List Condition) → List.Forall₂ (Alike agree) cs cs
  | [] => .nil
  | c :: rest => .cons (alike_refl refl c) (forest_alike_refl refl rest)

end

end Condition

namespace Reader

open Condition Likeness

variable {r : Reader} {context : Context} {s t : Text} {offset other : Nat}

abbrev AkinButSpaces (x y : Reading (List Condition)) : Prop :=
  Likeness.respacing.Akin (List.Forall₂ (Alike Respaced)) x y

theorem akin_respaced_offset (r : Reader) (context : Context) (offset other : Nat) (s : Text) :
    AkinButSpaces (r.read { context with offset } s)
      (r.read { context with offset := other } s) := by
  have akin := r.akin_offset { context with offset := other } offset s
  refine akin.mono ?_ ?_ ?_
  · intro e e' same
    cases e <;> cases e' <;> cases same <;> rfl
  · intro added others found
    refine List.Forall₂.imp (fun d d' same => ?_) found
    have kind := congrArg Diagnostic.kind same
    have fragment := congrArg Diagnostic.fragment same
    exact ⟨kind, fun _ => fragment⟩
  · rintro conditions _ rfl
    exact forest_alike_refl Respaced.refl conditions

theorem map_text_stretches (s : Text) :
    ((pieces sequenceMark s).filter (·.text ≠ [])).map Piece.text = stretches s := by
  rw [stretches, ← map_text_placed (byteLength sequenceMark) 0 (splitOn [' '] s), List.filter_map]
  rfl

theorem read_stretches (shallow : context.depth ≤ r.options.depthLimit)
    (sequential : Sequential s) :
    r.read context s =
      gather (fun p => r.read { context with offset := context.offset + p.offset } p.text)
        ((pieces sequenceMark s).filter (·.text ≠ [])) := by
  rw [read_sequential shallow sequential, gather_map, gather_filter]
  · rfl
  · intro p _ empty
    have nothing : p.text = [] := by simpa using empty
    rw [nothing]
    exact read_blank rfl

theorem akin_sequential (shallow : context.depth ≤ r.options.depthLimit) (left : Sequential s)
    (right : Sequential t) (same : stretches s = stretches t) (offset other : Nat) :
    AkinButSpaces (r.read { context with offset } s)
      (r.read { context with offset := other } t) := by
  have shallowThere : ∀ offset, Context.depth { context with offset } ≤ r.options.depthLimit :=
    fun _ => shallow
  rw [read_stretches (shallowThere offset) left, read_stretches (shallowThere other) right]
  have texts : List.Forall₂ (fun p q : Piece => p.text = q.text)
      ((pieces sequenceMark s).filter (·.text ≠ []))
      ((pieces sequenceMark t).filter (·.text ≠ [])) := by
    rw [← map_text_stretches, ← map_text_stretches, ← List.forall₂_eq_eq_eq,
      List.forall₂_map_left_iff, List.forall₂_map_right_iff] at same
    exact same
  apply akin_gather
  refine texts.imp fun p q text => ?_
  rw [text]
  exact r.akin_respaced_offset context _ _ q.text

theorem respaced_detachedException (context place : Context) (s t : Text)
    (base continuation other next : Operand) :
    (detachedException context s base continuation).Respaced
      (detachedException place t other next) :=
  ⟨rfl, nofun⟩

theorem akin_of_operands (same : stretches s = stretches t)
    (operand : ∀ o p, o ∈ (cut s).operands → Operand.Respaced o p →
      AkinButSpaces (r.read (Context.enter { context with offset } o) o.text)
        (r.read (Context.enter { context with offset := other } p) p.text)) :
    AkinButSpaces (r.read { context with offset } s)
      (r.read { context with offset := other } t) := by
  by_cases blank : s.isBlank = true
  · rw [read_blank blank, read_blank (isBlank_of_stretches same.symm blank)]
    exact akin_pure .nil
  · have inked : ¬ t.isBlank = true := mt (isBlank_of_stretches same) blank
    by_cases deep : r.options.depthLimit < context.depth
    · rw [read_eq, read_eq, if_neg blank, if_neg inked, if_pos deep, if_pos deep]
      exact akin_throw rfl
    · rcases cut_respaced same with sequential | alike
      · exact akin_sequential (Nat.le_of_not_lt deep) sequential (sequential.respaced same) same ..
      · rw [read_eq, read_eq, if_neg blank, if_neg inked, if_neg deep, if_neg deep]
        have gathered : ∀ {operands others}, (∀ o, o ∈ operands → o ∈ (cut s).operands) →
            List.Forall₂ Operand.Respaced operands others →
            AkinButSpaces
              (gather (fun o => r.read (Context.enter { context with offset } o) o.text) operands)
              (gather (fun o => r.read (Context.enter { context with offset := other } o) o.text)
                others) := by
          intro operands others members each
          have both := (List.forall₂_and_left operands others).mpr ⟨members, each⟩
          exact akin_gather (both.imp fun o p held => operand o p held.1 held.2)
        generalize cut s = found at alike operand gathered ⊢
        generalize cut t = foundToo at alike ⊢
        cases alike with
        | sequence each => exact gathered (fun _ member => member) each
        | alternatives each =>
            apply (gathered (fun _ member => member) each).bind
            intro branches others alike
            exact akin_pure (.cons (.node (respaced_choice same _ _ _ _) alike) .nil)
        | exception first second =>
            apply (operand _ _ (by simp [Cut.operands]) first).bind
            intro before beforeToo earlier
            apply (operand _ _ (by simp [Cut.operands]) second).bind
            intro after afterToo later
            exact akin_attach congruence_respaced earlier later
              (.cons (respaced_detachedException ..) .nil)
        | malformed delimiter => exact akin_throw rfl

theorem akin_respaced (r : Reader) (context : Context) (offset other : Nat)
    (same : stretches s = stretches t) :
    AkinButSpaces (r.read { context with offset } s)
      (r.read { context with offset := other } t) := by
  -- On the bytes of the one text; the offsets go apart, so the induction holds for any two.
  generalize size : byteLength s = n
  induction n using Nat.strongRecOn generalizing context offset other s t with
  | ind n ih =>
      apply akin_of_operands same
      intro o p member alike
      have enters : ∀ more (q : Operand), Context.enter { context with offset := more } q =
          { context.into q.place with offset := more + q.offset } := fun more q =>
        (Context.enter_eq _ q).trans (context.into_offset more q.place _)
      rw [enters offset o, enters other p, ← alike.place]
      exact ih _ (size ▸ byteLength_lt_of_mem_cut member) _ _ _ alike.text rfl

/-- Spaces at the ends and further ones between two words change nothing but positions and the
quoted text. -/
theorem readInto_respaced (r : Reader) (log : List Diagnostic) (context : Context) (s : Text) :
    ∃ added others,
      (r.readInto log context s).2 = log ++ added ∧
      (r.readInto log context (respaced s)).2 = log ++ others ∧
      Likeness.respacing.Outcome (List.Forall₂ (Alike Respaced)) (r.readInto log context s).1
        (r.readInto log context (respaced s)).1 ∧
      List.Forall₂ Diagnostic.Respaced added others := by
  obtain ⟨outcome, added, other, others, runs, runsToo, alike, found⟩ :=
    r.akin_respaced context context.offset context.offset (stretches_respaced s).symm
  refine ⟨added, others, congrArg Prod.snd (runs log), congrArg Prod.snd (runsToo log), ?_, found⟩
  have ends : (r.readInto log context s).1 = outcome := congrArg Prod.fst (runs log)
  have endsToo : (r.readInto log context (respaced s)).1 = other :=
    congrArg Prod.fst (runsToo log)
  rw [ends, endsToo]
  exact alike

theorem readInto_respaced_choice :
    ∃ wide narrow,
      respaced "{ A  又は  B }  C ".toList = "{ A 又は B } C".toList ∧
      (readInto ⟨.empty, {}⟩ [] {} "{ A  又は  B }  C ".toList).1 = .ok wide ∧
      (readInto ⟨.empty, {}⟩ [] {} "{ A 又は B } C".toList).1 = .ok narrow ∧
      wide = [.choice " A  又は  B ".toList 0 false
        [.ofLetter 'A' 0 false [], .ofLetter 'B' 0 false []], .ofLetter 'C' 0 false []] ∧
      narrow = [.choice " A 又は B ".toList 0 false
        [.ofLetter 'A' 0 false [], .ofLetter 'B' 0 false []], .ofLetter 'C' 0 false []] ∧
      List.Forall₂ (Alike Respaced) wide narrow ∧
      List.Forall₂ Diagnostic.Respaced (readInto ⟨.empty, {}⟩ [] {} "{ A  又は  B }  C ".toList).2
        (readInto ⟨.empty, {}⟩ [] {} "{ A 又は B } C".toList).2 := by
  have spaces : respaced "{ A  又は  B }  C ".toList = "{ A 又は B } C".toList := by
    decide +kernel
  obtain ⟨added, others, found, foundToo, outcome, findings⟩ :=
    readInto_respaced ⟨.empty, {}⟩ [] {} "{ A  又は  B }  C ".toList
  have wide : (readInto ⟨.empty, {}⟩ [] {} "{ A  又は  B }  C ".toList).1 =
      .ok [.choice " A  又は  B ".toList 0 false
        [.ofLetter 'A' 0 false [], .ofLetter 'B' 0 false []], .ofLetter 'C' 0 false []] :=
    Except.toOption_eq_some_iff.mp (by decide +kernel)
  have narrow : (readInto ⟨.empty, {}⟩ [] {} "{ A 又は B } C".toList).1 =
      .ok [.choice " A 又は B ".toList 0 false
        [.ofLetter 'A' 0 false [], .ofLetter 'B' 0 false []], .ofLetter 'C' 0 false []] :=
    Except.toOption_eq_some_iff.mp (by decide +kernel)
  rw [spaces] at foundToo outcome
  rw [wide, narrow] at outcome
  rw [List.nil_append] at found foundToo
  cases outcome with
  | ok alike =>
      refine ⟨_, _, spaces, wide, narrow, rfl, rfl, alike, ?_⟩
      rw [found, foundToo]
      exact findings

end Reader

end SignalBox
