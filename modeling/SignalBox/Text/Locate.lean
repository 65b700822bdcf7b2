import SignalBox.Text.Basic

/-! Finding tokens in a text. Every result holds the parts that it cuts the text into, so that the
parts written one after the other are the text again; the offsets follow from the parts. A token
that is empty is never found. -/

namespace SignalBox.Text

def dropStart? : Text → Text → Option Text
  | [], s => some s
  | _ :: _, [] => none
  | c :: t, d :: s => if c = d then dropStart? t s else none

def dropEnd? (ending s : Text) : Option Text :=
  (dropStart? ending.reverse s.reverse).map List.reverse

theorem dropStart?_eq_some_iff {start s rest : Text} :
    dropStart? start s = some rest ↔ s = start ++ rest := by
  induction start generalizing s with
  | nil => simp [dropStart?]
  | cons c start ih =>
      cases s with
      | nil => simp [dropStart?]
      | cons d s =>
          simp only [dropStart?, List.cons_append, List.cons.injEq]
          split
          · next h => simp [ih, h]
          · next h => simp [Ne.symm h]

theorem dropStart?_eq_none_iff {start s : Text} : dropStart? start s = none ↔ ¬ start <+: s := by
  constructor
  · rintro none ⟨rest, parts⟩
    rw [dropStart?_eq_some_iff.mpr parts.symm] at none
    contradiction
  · intro absent
    cases found : dropStart? start s with
    | none => rfl
    | some rest => exact absurd ⟨rest, (dropStart?_eq_some_iff.mp found).symm⟩ absent

theorem dropEnd?_eq_some_iff {ending s rest : Text} :
    dropEnd? ending s = some rest ↔ s = rest ++ ending := by
  simp only [dropEnd?, Option.map_eq_some_iff, dropStart?_eq_some_iff]
  constructor
  · rintro ⟨t, h, rfl⟩
    simpa using congrArg List.reverse h
  · rintro rfl
    exact ⟨rest.reverse, by simp, by simp⟩

theorem dropEnd?_eq_none_iff {ending s : Text} : dropEnd? ending s = none ↔ ¬ ending <:+ s := by
  rw [dropEnd?, Option.map_eq_none_iff, dropStart?_eq_none_iff, List.reverse_prefix]

/-- Takes an opening off the front and a closing off the end, if both are there and do not
overlap. -/
def unwrap? (opening closing s : Text) : Option Text :=
  (dropStart? opening s).bind (dropEnd? closing)

theorem unwrap?_eq_some_iff {opening closing s inner : Text} :
    unwrap? opening closing s = some inner ↔ s = opening ++ inner ++ closing := by
  simp only [unwrap?, Option.bind_eq_some_iff, dropStart?_eq_some_iff, dropEnd?_eq_some_iff]
  constructor
  · rintro ⟨_, rfl, rfl⟩
    simp
  · rintro rfl
    exact ⟨inner ++ closing, by simp, rfl⟩

@[ext] structure Split where
  before : Text
  token : Text
  after : Text
deriving DecidableEq, Repr

def Split.text (x : Split) : Text :=
  x.before ++ x.token ++ x.after

def Split.tokenAt (x : Split) : Nat :=
  byteLength x.before

def Split.afterAt (x : Split) : Nat :=
  x.tokenAt + byteLength x.token

def cutLast? (token : Text) : Text → Option Split
  | [] => none
  | c :: s =>
      match cutLast? token s with
      | some x => some { x with before := c :: x.before }
      | none =>
          if token = [] then none
          else (dropStart? token (c :: s)).map fun after => ⟨[], token, after⟩

def cutFirst? (token : Text) : Text → Option Split
  | [] => none
  | c :: s =>
      if token = [] then none
      else
        match dropStart? token (c :: s) with
        | some after => some ⟨[], token, after⟩
        | none => (cutFirst? token s).map fun x => { x with before := c :: x.before }

def contains (token s : Text) : Bool :=
  (cutFirst? token s).isSome

theorem token_ne_nil_of_cutLast? {token s : Text} {x : Split} (h : cutLast? token s = some x) :
    token ≠ [] := by
  induction s generalizing x with
  | nil => simp [cutLast?] at h
  | cons c s ih =>
      rw [cutLast?] at h
      split at h
      · next y hy => exact ih hy
      · split at h
        · contradiction
        · assumption

theorem cutLast?_parts {token s : Text} {x : Split} (h : cutLast? token s = some x) :
    x.token = token ∧ s = x.text := by
  induction s generalizing x with
  | nil => simp [cutLast?] at h
  | cons c s ih =>
      rw [cutLast?] at h
      split at h
      · next y hy =>
          cases h
          obtain ⟨ht, hs⟩ := ih hy
          exact ⟨ht, by rw [hs]; rfl⟩
      · split at h
        · contradiction
        · obtain ⟨rest, hrest, rfl⟩ := Option.map_eq_some_iff.mp h
          exact ⟨rfl, dropStart?_eq_some_iff.mp hrest⟩

theorem cutLast?_eq_none_iff {token s : Text} (h : token ≠ []) :
    cutLast? token s = none ↔ ¬ token <:+: s := by
  induction s with
  | nil => simp [cutLast?, h]
  | cons c s ih =>
      rw [cutLast?]
      split
      · next y hy =>
          have found : token <:+: s := by
            apply Classical.byContradiction
            intro absent
            rw [ih.mpr absent] at hy
            contradiction
          simp [List.infix_cons_iff, found]
      · next hy =>
          rw [if_neg h, Option.map_eq_none_iff, List.infix_cons_iff, not_or]
          rw [dropStart?_eq_none_iff]
          exact ⟨fun absent => ⟨absent, ih.mp hy⟩, And.left⟩

theorem cutLast?_last {token s : Text} {x : Split} (h : cutLast? token s = some x)
    (before after : Text) (hs : s = before ++ token ++ after) :
    before.length ≤ x.before.length := by
  induction s generalizing x before with
  | nil => simp [cutLast?] at h
  | cons c s ih =>
      cases before with
      | nil => exact Nat.zero_le _
      | cons d before =>
          simp only [List.cons_append, List.cons.injEq] at hs
          rw [cutLast?] at h
          split at h
          · next y hy =>
              cases h
              exact Nat.succ_le_succ (ih hy before hs.2)
          · next hy =>
              have nonempty : token ≠ [] := by
                rintro rfl
                simp at h
              exact absurd ⟨before, after, hs.2.symm⟩ ((cutLast?_eq_none_iff nonempty).mp hy)

theorem cutLast?_eq_some_iff {token s : Text} {x : Split} :
    cutLast? token s = some x ↔
      token ≠ [] ∧ x.token = token ∧ s = x.text ∧
        ∀ before after, s = before ++ token ++ after → before.length ≤ x.before.length := by
  constructor
  · intro h
    exact ⟨token_ne_nil_of_cutLast? h, (cutLast?_parts h).1, (cutLast?_parts h).2,
      cutLast?_last h⟩
  · rintro ⟨nonempty, ht, hs, last⟩
    cases h : cutLast? token s with
    | none =>
        exact absurd ⟨x.before, x.after, by rw [hs, Split.text, ht]⟩
          ((cutLast?_eq_none_iff nonempty).mp h)
    | some y =>
        obtain ⟨hy, hsy⟩ := cutLast?_parts h
        have le₁ := cutLast?_last h x.before x.after (by rw [hs, Split.text, ht])
        have le₂ := last y.before y.after (by rw [hsy, Split.text, hy])
        have same : y.before ++ (token ++ y.after) = x.before ++ (token ++ x.after) := by
          rw [← List.append_assoc, ← List.append_assoc]
          simp only [Split.text, ht, hy] at hs hsy
          exact hsy.symm.trans hs
        obtain ⟨hb, hr⟩ := List.append_inj same (by omega)
        exact congrArg some (Split.ext hb (hy.trans ht.symm) (List.append_cancel_left hr))

theorem cutFirst?_parts {token s : Text} {x : Split} (h : cutFirst? token s = some x) :
    token ≠ [] ∧ x.token = token ∧ s = x.text := by
  induction s generalizing x with
  | nil => simp [cutFirst?] at h
  | cons c s ih =>
      rw [cutFirst?] at h
      split at h
      · contradiction
      · next nonempty =>
          split at h
          · next after hafter =>
              cases h
              exact ⟨nonempty, rfl, dropStart?_eq_some_iff.mp hafter⟩
          · obtain ⟨y, hy, rfl⟩ := Option.map_eq_some_iff.mp h
            obtain ⟨_, ht, hs⟩ := ih hy
            exact ⟨nonempty, ht, by rw [hs]; rfl⟩

theorem contains_eq_true_iff {token s : Text} (nonempty : token ≠ []) :
    contains token s = true ↔ token <:+: s := by
  constructor
  · intro h
    obtain ⟨x, hx⟩ := Option.isSome_iff_exists.mp h
    obtain ⟨_, ht, hs⟩ := cutFirst?_parts hx
    exact ⟨x.before, x.after, by rw [hs, Split.text, ht]⟩
  · intro h
    induction s with
    | nil => exact absurd (List.infix_nil.mp h) nonempty
    | cons c s ih =>
        rw [contains, cutFirst?, if_neg nonempty]
        split
        · rfl
        · next hd =>
            rw [Option.isSome_map]
            rcases List.infix_cons_iff.mp h with starts | inner
            · exact absurd starts (dropStart?_eq_none_iff.mp hd)
            · exact ih inner

/-- Of the candidates whose marks occur, the one whose last occurrence starts furthest right,
together with that occurrence; of several that start there, the first listed. -/
def furthestRight? (mark : α → Text) (s : Text) : List α → Option (α × Split)
  | [] => none
  | a :: rest =>
      match cutLast? (mark a) s, furthestRight? mark s rest with
      | none, later => later
      | some x, none => some (a, x)
      | some x, some (b, y) => if x.tokenAt < y.tokenAt then some (b, y) else some (a, x)

theorem cutLast?_of_furthestRight? {mark : α → Text} {s : Text} {candidates : List α} {a : α}
    {x : Split} (h : furthestRight? mark s candidates = some (a, x)) :
    a ∈ candidates ∧ cutLast? (mark a) s = some x := by
  induction candidates generalizing a x with
  | nil => simp [furthestRight?] at h
  | cons b rest ih =>
      rw [furthestRight?] at h
      split at h
      · exact (ih h).imp_left (List.mem_cons_of_mem _)
      · next y hy _ =>
          cases h
          exact ⟨List.mem_cons_self, hy⟩
      · next y c z hy hz =>
          split at h
          · cases h
            exact (ih hz).imp_left (List.mem_cons_of_mem _)
          · cases h
            exact ⟨List.mem_cons_self, hy⟩

@[ext] structure Enclosure where
  before : Text
  opening : Text
  between : Text
  closing : Text
  after : Text
deriving DecidableEq, Repr

def Enclosure.text (x : Enclosure) : Text :=
  x.before ++ x.opening ++ x.between ++ x.closing ++ x.after

def Enclosure.openAt (x : Enclosure) : Nat :=
  byteLength x.before

def Enclosure.betweenAt (x : Enclosure) : Nat :=
  x.openAt + byteLength x.opening

def Enclosure.closeAt (x : Enclosure) : Nat :=
  x.betweenAt + byteLength x.between

def Enclosure.afterAt (x : Enclosure) : Nat :=
  x.closeAt + byteLength x.closing

/-- The last closing and the last opening before it. The choice goes by position alone: the two
need not balance. -/
def enclosedByLast? (opening closing s : Text) : Option Enclosure := do
  let outer ← cutLast? closing s
  let inner ← cutLast? opening outer.before
  some ⟨inner.before, opening, inner.after, closing, outer.after⟩

theorem enclosedByLast?_of_cutLast? {opening closing s : Text} {outer : Split}
    (last : cutLast? closing s = some outer) :
    enclosedByLast? opening closing s = (cutLast? opening outer.before).map fun inner =>
      ⟨inner.before, opening, inner.after, closing, outer.after⟩ := by
  rw [enclosedByLast?, last]
  simp only [Option.bind_eq_bind, Option.bind_some]
  cases cutLast? opening outer.before <;> rfl

theorem enclosedByLast?_eq_some_iff {opening closing s : Text} {x : Enclosure} :
    enclosedByLast? opening closing s = some x ↔
      x.opening = opening ∧ x.closing = closing ∧
        cutLast? closing s = some ⟨x.before ++ x.opening ++ x.between, x.closing, x.after⟩ ∧
        cutLast? opening (x.before ++ x.opening ++ x.between) =
          some ⟨x.before, x.opening, x.between⟩ := by
  simp only [enclosedByLast?, Option.bind_eq_bind, Option.bind_eq_some_iff, Option.some.injEq]
  constructor
  · rintro ⟨outer, last, inner, nearest, rfl⟩
    obtain ⟨same, _⟩ := cutLast?_parts last
    obtain ⟨sameToo, front⟩ := cutLast?_parts nearest
    rw [Split.text, sameToo] at front
    exact ⟨rfl, rfl, by rw [last, ← front, ← same], by rw [← front, nearest, ← sameToo]⟩
  · rintro ⟨rfl, rfl, last, nearest⟩
    exact ⟨_, last, _, nearest, rfl⟩

theorem enclosedByLast?_parts {opening closing s : Text} {x : Enclosure}
    (h : enclosedByLast? opening closing s = some x) :
    x.opening = opening ∧ x.closing = closing ∧ s = x.text ∧ opening ≠ [] ∧ closing ≠ [] := by
  obtain ⟨same, sameToo, last, nearest⟩ := enclosedByLast?_eq_some_iff.mp h
  exact ⟨same, sameToo, (cutLast?_parts last).2, token_ne_nil_of_cutLast? nearest,
    token_ne_nil_of_cutLast? last⟩

theorem length_after_of_cutFirst? {token s : Text} {x : Split} (h : cutFirst? token s = some x) :
    x.after.length < s.length := by
  obtain ⟨nonempty, ht, hs⟩ := cutFirst?_parts h
  have := List.length_pos_iff.mpr nonempty
  rw [hs, Split.text, ht]
  simp only [List.length_append]
  omega

/-- An empty separator stands before, between and after all characters. -/
def splitOn (separator s : Text) : List Text :=
  if separator = [] then [] :: s.map (fun c => [c]) ++ [[]]
  else
    match h : cutFirst? separator s with
    | none => [s]
    | some x =>
        have := length_after_of_cutFirst? h
        x.before :: splitOn separator x.after
termination_by s.length

@[ext] structure Piece where
  offset : Nat
  text : Text
deriving DecidableEq, Repr

def Piece.placed (gap : Nat) : Nat → List Text → List Piece
  | _, [] => []
  | offset, s :: rest => ⟨offset, s⟩ :: Piece.placed gap (offset + byteLength s + gap) rest

def pieces (separator s : Text) : List Piece :=
  Piece.placed (byteLength separator) 0 (splitOn separator s)

end SignalBox.Text
