import SignalBox.Proofs.Brackets

/-! Without exceptions a formula is read without loss: the equipment of its conditions is named by
pieces of the text, in their order, and nothing but blanks, brackets and alternative marks stands
around these. -/

namespace SignalBox

open Text Formula

inductive Idle : Text → Prop
  | nil : Idle []
  | blank (white : isWhite c = true) (rest : Idle s) : Idle (c :: s)
  | bracket (member : c ∈ Bracket.characters) (rest : Idle s) : Idle (c :: s)
  | alternative (rest : Idle s) : Idle (alternativeMark ++ s)

namespace Idle

variable {s t : Text}

theorem append (left : Idle s) (right : Idle t) : Idle (s ++ t) := by
  induction left with
  | nil => exact right
  | blank white _ ih => exact ih.blank white
  | bracket member _ ih => exact ih.bracket member
  | alternative _ ih => exact ih.alternative

theorem of_isBlank (blank : s.isBlank = true) : Idle s := by
  induction s with
  | nil => exact .nil
  | cons c s ih =>
      rw [isBlank_cons, Bool.and_eq_true] at blank
      exact (ih blank.2).blank blank.1

theorem of_replicate {c : Char} (member : c ∈ Bracket.characters) (n : Nat) :
    Idle (List.replicate n c) := by
  induction n with
  | zero => exact .nil
  | succ n ih => exact ih.bracket member

end Idle

/-- In a text that starts at byte `offset` the tiles stand one after the other, each at its own
offset, and around them stands idle text alone. -/
inductive Tiled : Nat → Text → List Piece → Prop
  | idle (gap : Idle g) : Tiled offset g []
  | tile (gap : Idle g) (rest : Tiled (offset + byteLength g + byteLength t) s tiles) :
      Tiled offset (g ++ t ++ s) (⟨offset + byteLength g, t⟩ :: tiles)

namespace Tiled

variable {offset : Nat} {g s t : Text} {tiles others : List Piece} {p : Piece}

theorem idle_append (gap : Idle g) (tiled : Tiled (offset + byteLength g) s tiles) :
    Tiled offset (g ++ s) tiles := by
  generalize start : offset + byteLength g = n at tiled
  cases tiled with
  | idle more => exact .idle (gap.append more)
  | @tile h _ t s tiles more rest =>
      subst start
      have eq : offset + byteLength (g ++ h) = offset + byteLength g + byteLength h := by
        rw [byteLength_append, Nat.add_assoc]
      rw [← eq] at rest ⊢
      rw [List.append_assoc h, ← List.append_assoc g, ← List.append_assoc (g ++ h)]
      exact .tile (gap.append more) rest

theorem append (left : Tiled offset s tiles) (right : Tiled (offset + byteLength s) t others) :
    Tiled offset (s ++ t) (tiles ++ others) := by
  induction left with
  | idle gap => exact right.idle_append gap
  | tile gap rest ih =>
      rw [List.append_assoc, List.cons_append]
      refine .tile gap (ih ?_)
      rwa [byteLength_append, byteLength_append, ← Nat.add_assoc, ← Nat.add_assoc] at right

theorem offset_le (tiled : Tiled offset s tiles) (member : p ∈ tiles) : offset ≤ p.offset := by
  induction tiled with
  | idle => contradiction
  | tile gap rest ih =>
      rcases List.mem_cons.mp member with rfl | later
      · exact Nat.le_add_right _ _
      · have := ih later
        omega

theorem ordered (tiled : Tiled offset s tiles) :
    tiles.Pairwise fun p q => p.offset + byteLength p.text ≤ q.offset := by
  induction tiled with
  | idle => exact .nil
  | tile gap rest ih => exact List.pairwise_cons.mpr ⟨fun q later => rest.offset_le later, ih⟩

theorem slice (tiled : Tiled offset s tiles) (member : p ∈ tiles) :
    ∃ before after, s = before ++ p.text ++ after ∧ offset + byteLength before = p.offset := by
  induction tiled with
  | idle => contradiction
  | @tile g _ t s tiles gap rest ih =>
      rcases List.mem_cons.mp member with rfl | later
      · exact ⟨g, s, rfl, rfl⟩
      · obtain ⟨before, after, rfl, start⟩ := ih later
        refine ⟨g ++ t ++ before, after, by simp only [List.append_assoc], ?_⟩
        rw [byteLength_append, byteLength_append]
        omega

end Tiled

namespace Condition

theorem filter_forestPreorder (cs : List Condition) :
    (forestPreorder cs).filter (fun d => !d.isChoice) = cs.flatMap equipment := by
  induction cs with
  | nil => rfl
  | cons c cs ih => rw [forestPreorder_cons, List.filter_append, ih, List.flatMap_cons, equipment]

theorem equipment_choice (name : Text) (station : UInt32) (partialLock : Bool)
    (branches : List Condition) :
    (choice name station partialLock branches).equipment = branches.flatMap equipment := by
  rw [equipment, preorder_eq, List.filter_cons_of_neg (by simp [isChoice, choice])]
  exact filter_forestPreorder branches

theorem equipment_of_childless {c : Condition} (single : c.isChoice = false)
    (childless : c.children = []) : c.equipment = [c] := by
  rw [equipment, preorder_eq, childless, forestPreorder_nil,
    List.filter_cons_of_pos (by simp [single])]
  rfl

end Condition

namespace Reader

/-- The condition is the one that the text names: the text is one name, the parentheses around it
tell the decoration, what is in them the category and the name to record. -/
structure Names (r : Reader) (t : Text) (c : Condition) : Prop where
  single : cut t = .name (Decoration.strip t).1 (Decoration.strip t).2
  identified : (c.category, c.name) = r.identify (Decoration.strip t).2
  reverse : c.reverse = decide ((Decoration.strip t).1 = .reverse)
  summary : c.summary = decide ((Decoration.strip t).1 = .summary)
  childless : c.children = []

def Covers (r : Reader) (s : Text) (conditions : List Condition) : Prop :=
  '但' ∉ s → ∀ offset, ∃ tiles, Tiled offset s tiles ∧
    List.Forall₂ (fun p c => r.Names p.text c) tiles (conditions.flatMap Condition.equipment)

variable {r : Reader} {s x y : Text} {cs ds : List Condition}

theorem covers_idle (idle : Idle s) : r.Covers s [] :=
  fun _ _ => ⟨[], .idle idle, .nil⟩

theorem Covers.append (left : r.Covers x cs) (right : r.Covers y ds) :
    r.Covers (x ++ y) (cs ++ ds) := by
  intro plain offset
  rw [List.mem_append, not_or] at plain
  obtain ⟨tiles, tiled, named⟩ := left plain.1 offset
  obtain ⟨others, tiledToo, namedToo⟩ := right plain.2 (offset + byteLength x)
  refine ⟨tiles ++ others, tiled.append tiledToo, ?_⟩
  rw [List.flatMap_append]
  exact List.rel_append named namedToo

theorem Covers.append_idle (left : r.Covers x cs) (idle : Idle y) : r.Covers (x ++ y) cs := by
  have both := left.append (covers_idle idle)
  rwa [List.append_nil] at both

theorem Covers.enclosed {z g h : Text} {es : List Condition} (left : r.Covers x cs)
    (inner : r.Covers y ds) (right : r.Covers z es) (opening : Idle g) (closing : Idle h) :
    r.Covers (x ++ g ++ y ++ h ++ z) (cs ++ (ds ++ (es ++ []))) := by
  have all := (((left.append_idle opening).append inner).append_idle closing).append right
  rwa [List.append_assoc cs, ← List.append_nil es] at all

theorem Covers.choice {name : Text} {station : UInt32} {partialLock : Bool}
    {branches : List Condition} (covers : r.Covers s branches) :
    r.Covers s [Condition.choice name station partialLock branches] := by
  intro plain offset
  rw [List.flatMap_singleton, Condition.equipment_choice]
  exact covers plain offset

theorem covers_name {context : Context} {decoration : Decoration} {token : Text}
    (found : cut s = .name decoration token)
    (stripped : Decoration.strip s = (decoration, token)) :
    r.Covers s [r.namedCondition context decoration token] := by
  intro _ offset
  refine ⟨[⟨offset, s⟩], ?_, ?_⟩
  · have tiled : Tiled offset ([] ++ s ++ []) [⟨offset + 0, s⟩] := .tile .nil (.idle .nil)
    rwa [List.append_nil] at tiled
  · rw [List.flatMap_singleton, Condition.equipment_of_childless
      (r.isChoice_namedCondition context decoration token) rfl]
    have names : r.Names s (r.namedCondition context decoration token) := by
      refine ⟨?_, ?_, ?_, ?_, rfl⟩
      · rw [stripped, found]
      all_goals
        rw [stripped]
        rfl
    exact .cons names .nil

theorem yields_covers (r : Reader) (context : Context) (s : Text) :
    Reading.Yields (r.read context s) fun conditions _ => r.Covers s conditions := by
  refine r.read_yields (motive := fun _ s conditions _ => r.Covers s conditions)
    ?_ ?_ ?_ ?_ ?_ context s
  · intro _ s blank
    exact covers_idle (.of_isBlank blank)
  · intro _ s decoration token found
    have shape : Shape s (.name decoration token) := found ▸ shape_cut s
    cases shape with
    | name word unlocked alone stripped named => exact covers_name found stripped
  · intro _ s operands parts found each
    have shape : Shape s (.sequence operands) := found ▸ shape_cut s
    cases shape with
    | group enclosed undivided =>
        obtain ⟨_, _, _, rfl, left, inner, right⟩ := exists_three_parts each
        have covers := left.enclosed inner right (.bracket (c := '{') (by decide) .nil)
          (.bracket (c := '}') (by decide) .nil)
        simpa using covers
    | station positive ends opened undivided =>
        obtain ⟨_, _, _, rfl, left, inner, right⟩ := exists_three_parts each
        rw [opened.text]
        exact left.enclosed inner right (.of_replicate (c := '[') (by decide) _)
          (.of_replicate (c := ']') (by decide) _)
    | words undivided single spaced =>
        refine holds_of_pieces r.Covers (by simp [sequenceMark]) ?_ each
        intro x y cs ds left right
        exact (left.append_idle (.of_isBlank (by decide))).append right
    | lock word enclosed last =>
        obtain ⟨_, _, _, rfl, left, inner, right⟩ := exists_three_parts each
        have covers := left.enclosed inner right (.bracket (c := '<') (by decide) .nil)
          (.bracket (c := '>') (by decide) .nil)
        simpa using covers
    | decorated word unlocked adjacent enclosure =>
        obtain ⟨_, _, _, rfl, left, inner, right⟩ := exists_three_parts each
        have covers := left.enclosed inner right .nil .nil
        rw [(enclosedByRun?_parts enclosure).2.2]
        simpa [Enclosure.text] using covers
  · intro _ s operands parts found each
    have shape : Shape s (.alternatives operands) := found ▸ shape_cut s
    cases shape with
    | alternatives undivided found =>
        refine Covers.choice (holds_of_pieces r.Covers (by simp [alternativeMark]) ?_ each)
        intro x y cs ds left right
        exact (left.append_idle (.alternative .nil)).append right
  · intro _ s base continuation before after earlier later found _ _ plain
    have shape : Shape s (.exception base continuation) := found ▸ shape_cut s
    cases shape with
    | exception undivided => simp at plain

/-- The tiles name the equipment of the conditions one by one and in order. They are disjoint
slices of the text, and all around them is idle. -/
structure Tiling (r : Reader) (s : Text) (conditions : List Condition) (tiles : List Piece) :
    Prop where
  tiled : Tiled 0 s tiles
  named : List.Forall₂ (fun p c => r.Names p.text c) tiles
    (conditions.flatMap Condition.equipment)
  ordered : tiles.Pairwise fun p q => p.offset + byteLength p.text ≤ q.offset
  slices : ∀ p, p ∈ tiles → ∃ before after, s = before ++ p.text ++ after ∧
    byteLength before = p.offset

/-- A formula without exceptions loses nothing: not a name is dropped, doubled or moved. -/
theorem exists_tiling (r : Reader) (log : List Diagnostic) (context : Context) (s : Text)
    (conditions : List Condition) (plain : '但' ∉ s)
    (read : (r.readInto log context s).1 = .ok conditions) :
    ∃ tiles, r.Tiling s conditions tiles := by
  have run : (r.read context s).run log = (.ok conditions, (r.readInto log context s).2) :=
    Prod.ext read rfl
  obtain ⟨_, _, covers⟩ := r.yields_covers context s log conditions _ run
  obtain ⟨tiles, tiled, named⟩ := covers plain 0
  refine ⟨tiles, tiled, named, tiled.ordered, ?_⟩
  intro p member
  obtain ⟨before, after, parts, start⟩ := tiled.slice member
  exact ⟨before, after, parts, by omega⟩

theorem exists_tiling_decorated :
    '但' ∉ "{A又は<B>} (C)".toList ∧
      ((⟨.empty, {}⟩ : Reader).readInto [] {} "{A又は<B>} (C)".toList).1 =
        .ok [.choice "A又は<B>".toList 0 false
            [{ category := .unclassified, station := 0, name := ['A'] },
              { category := .unclassified, station := 0, name := ['B'], partialLock := true }],
          { category := .unclassified, station := 0, name := ['C'], reverse := true }] ∧
      ∃ tiles, (⟨.empty, {}⟩ : Reader).Tiling "{A又は<B>} (C)".toList
        [.choice "A又は<B>".toList 0 false
            [{ category := .unclassified, station := 0, name := ['A'] },
              { category := .unclassified, station := 0, name := ['B'], partialLock := true }],
          { category := .unclassified, station := 0, name := ['C'], reverse := true }]
        tiles :=
  have read := Except.toOption_eq_some_iff.mp (by decide +kernel)
  ⟨by decide, read, exists_tiling ⟨.empty, {}⟩ [] {} _ _ (by decide) read⟩

end Reader

end SignalBox
