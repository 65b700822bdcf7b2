import SignalBox.Proofs.Formula.Shape
import SignalBox.Proofs.Reading

/-! A formula that is read without an error has an opening for each closing. The pairs that they
form lie side by side or inside each other; openings may be left over. -/

namespace SignalBox

open Text Formula

inductive Bracket where
  | group
  | station
  | lock
deriving DecidableEq, Repr

namespace Bracket

def opening : Bracket → Char
  | .group => '{'
  | .station => '['
  | .lock => '<'

def closing : Bracket → Char
  | .group => '}'
  | .station => ']'
  | .lock => '>'

def characters : List Char :=
  ['{', '}', '[', ']', '<', '>']

theorem closing_mem_characters (b : Bracket) : b.closing ∈ characters := by
  cases b <;> decide

/-- A station bracket is a whole run of its character, any other bracket a single one. -/
def Stands : Bracket → Char → Text → Nat → Nat → Prop
  | .station, c, s, start, count => Run c s start count
  | _, c, s, start, count => count = 1 ∧ s[start]? = some c

variable {b : Bracket} {c : Char} {s x y : Text} {start count i n : Nat}

theorem Stands.positive (stands : b.Stands c s start count) : 0 < count := by
  cases b with
  | station => exact Run.positive stands
  | group => exact stands.1 ▸ Nat.one_pos
  | lock => exact stands.1 ▸ Nat.one_pos

theorem Stands.end_le (stands : b.Stands c s start count) : start + count ≤ s.length := by
  cases b with
  | station => exact Run.end_le stands
  | group =>
      obtain ⟨rfl, found⟩ := stands
      exact (List.getElem?_eq_some_iff.mp found).1
  | lock =>
      obtain ⟨rfl, found⟩ := stands
      exact (List.getElem?_eq_some_iff.mp found).1

theorem Stands.mem (stands : b.Stands c s start count) : c ∈ s := by
  cases b with
  | station => exact Run.mem stands
  | group => exact List.mem_of_getElem? stands.2
  | lock => exact List.mem_of_getElem? stands.2

theorem single_append_iff :
    (count = 1 ∧ (x ++ y)[start]? = some c) ↔
      (count = 1 ∧ x[start]? = some c) ∨
        ∃ i, start = x.length + i ∧ count = 1 ∧ y[i]? = some c := by
  by_cases inLeft : start < x.length
  · rw [List.getElem?_append_left inLeft]
    constructor
    · exact .inl
    · rintro (here | ⟨i, rfl, -⟩)
      · exact here
      · omega
  · obtain ⟨i, rfl⟩ := Nat.exists_eq_add_of_le (Nat.le_of_not_lt inLeft)
    rw [List.getElem?_append_right (Nat.le_add_right _ _), Nat.add_sub_cancel_left]
    constructor
    · exact fun here => .inr ⟨i, rfl, here⟩
    · rintro (⟨-, here⟩ | ⟨j, same, here⟩)
      · have := (List.getElem?_eq_some_iff.mp here).1
        omega
      · obtain rfl : i = j := by omega
        exact here

theorem stands_append_iff (apart : b = .station → Apart c x y) :
    b.Stands c (x ++ y) start count ↔
      b.Stands c x start count ∨ ∃ i, start = x.length + i ∧ b.Stands c y i count := by
  cases b with
  | station => exact run_append_iff (apart rfl)
  | group => exact single_append_iff
  | lock => exact single_append_iff

theorem stands_replicate (positive : 0 < n) (single : b ≠ .station → n = 1) :
    b.Stands c (List.replicate n c) 0 n := by
  cases b with
  | station => exact run_replicate positive
  | group =>
      obtain rfl := single nofun
      exact ⟨rfl, rfl⟩
  | lock =>
      obtain rfl := single nofun
      exact ⟨rfl, rfl⟩

theorem Stands.eq_of_replicate (stands : b.Stands c (List.replicate n c) start count)
    (single : b ≠ .station → n = 1) : start = 0 ∧ count = n := by
  have positive := stands.positive
  have fits := stands.end_le
  rw [List.length_replicate] at fits
  cases b with
  | station => exact Run.eq_of_replicate stands
  | group =>
      obtain rfl := single nofun
      omega
  | lock =>
      obtain rfl := single nofun
      omega

structure Seam (x y : Text) : Prop where
  openings : Apart '[' x y
  closings : Apart ']' x y

theorem seam_of_head? {d : Char} (starts : y.head? = some d) (opening : d ≠ '[')
    (closing : d ≠ ']') : Seam x y where
  openings := apart_of_head? (by simp [starts, opening])
  closings := apart_of_head? (by simp [starts, closing])

theorem seam_of_getLast? {d : Char} (ends : x.getLast? = some d) (opening : d ≠ '[')
    (closing : d ≠ ']') : Seam x y where
  openings := apart_of_getLast? (by simp [ends, opening])
  closings := apart_of_getLast? (by simp [ends, closing])

theorem Seam.opening_append_iff (seam : Seam x y) :
    b.Stands b.opening (x ++ y) start count ↔
      b.Stands b.opening x start count ∨
        ∃ i, start = x.length + i ∧ b.Stands b.opening y i count :=
  stands_append_iff fun station => station ▸ seam.openings

theorem Seam.closing_append_iff (seam : Seam x y) :
    b.Stands b.closing (x ++ y) start count ↔
      b.Stands b.closing x start count ∨
        ∃ i, start = x.length + i ∧ b.Stands b.closing y i count :=
  stands_append_iff fun station => station ▸ seam.closings

end Bracket

structure Pair where
  bracket : Bracket
  count : Nat
  openAt : Nat
  closeAt : Nat
deriving DecidableEq, Repr

namespace Pair

structure Joins (p : Pair) (s : Text) : Prop where
  opening : p.bracket.Stands p.bracket.opening s p.openAt p.count
  closing : p.bracket.Stands p.bracket.closing s p.closeAt p.count
  ordered : p.openAt + p.count ≤ p.closeAt

def IsBefore (p q : Pair) : Prop :=
  p.closeAt + p.count ≤ q.openAt

def IsInside (p q : Pair) : Prop :=
  q.openAt + q.count ≤ p.openAt ∧ p.closeAt + p.count ≤ q.closeAt

/-- The two do not cross and share no bracket. -/
def Clear (p q : Pair) : Prop :=
  p.IsBefore q ∨ q.IsBefore p ∨ p.IsInside q ∨ q.IsInside p

def shift (distance : Nat) (p : Pair) : Pair :=
  { p with openAt := distance + p.openAt, closeAt := distance + p.closeAt }

end Pair

/-- Every closing of the text has its opening, and no two of the pairs cross. -/
structure Matching (s : Text) (pairs : List Pair) : Prop where
  joins : ∀ p, p ∈ pairs → p.Joins s
  closed : ∀ (b : Bracket) start count, b.Stands b.closing s start count →
    ∃ p, p ∈ pairs ∧ p.bracket = b ∧ p.closeAt = start ∧ p.count = count
  clear : pairs.Pairwise Pair.Clear

namespace Matching

variable {s x y : Text} {pairs others : List Pair} {p q : Pair} {distance n : Nat} {b : Bracket}

theorem of_no_closing (absent : ∀ b : Bracket, b.closing ∉ s) : Matching s [] where
  joins := nofun
  closed b _ _ stands := absurd stands.mem (absent b)
  clear := .nil

theorem distinct_of_clear (clear : p.Clear q) (first : p.Joins s) (second : q.Joins s) :
    p.openAt ≠ q.openAt ∧ p.closeAt ≠ q.closeAt := by
  have := first.opening.positive
  have := second.opening.positive
  have := first.ordered
  have := second.ordered
  unfold Pair.Clear Pair.IsBefore Pair.IsInside at clear
  omega

theorem shift_clear (clear : p.Clear q) :
    (p.shift distance).Clear (q.shift distance) := by
  unfold Pair.Clear Pair.IsBefore Pair.IsInside at *
  simp only [Pair.shift]
  omega

theorem append (left : Matching x pairs) (right : Matching y others) (seam : Bracket.Seam x y) :
    Matching (x ++ y) (pairs ++ others.map (Pair.shift x.length)) where
  joins p member := by
    rcases List.mem_append.mp member with inLeft | inRight
    · obtain ⟨opening, closing, ordered⟩ := left.joins p inLeft
      exact ⟨seam.opening_append_iff.mpr (.inl opening),
        seam.closing_append_iff.mpr (.inl closing), ordered⟩
    · obtain ⟨q, inOthers, rfl⟩ := List.mem_map.mp inRight
      obtain ⟨opening, closing, ordered⟩ := right.joins q inOthers
      refine ⟨seam.opening_append_iff.mpr (.inr ⟨_, rfl, opening⟩),
        seam.closing_append_iff.mpr (.inr ⟨_, rfl, closing⟩), ?_⟩
      simp only [Pair.shift]
      omega
  closed b start count stands := by
    rcases seam.closing_append_iff.mp stands with inLeft | ⟨i, rfl, inRight⟩
    · obtain ⟨p, member, found⟩ := left.closed b start count inLeft
      exact ⟨p, List.mem_append_left _ member, found⟩
    · obtain ⟨q, member, rfl, rfl, rfl⟩ := right.closed b i count inRight
      exact ⟨q.shift x.length, List.mem_append_right _ (List.mem_map_of_mem member), rfl, rfl, rfl⟩
  clear := by
    refine List.pairwise_append.mpr ⟨left.clear, ?_, ?_⟩
    · exact List.pairwise_map.mpr (right.clear.imp shift_clear)
    · intro p inLeft q inRight
      obtain ⟨q, -, rfl⟩ := List.mem_map.mp inRight
      have := (left.joins p inLeft).closing.end_le
      refine .inl ?_
      simp only [Pair.IsBefore, Pair.shift]
      omega

theorem enclose (inner : Matching y pairs) (positive : 0 < n) (single : b ≠ .station → n = 1)
    (outer : Bracket.Seam (List.replicate n b.opening) (y ++ List.replicate n b.closing))
    (seam : Bracket.Seam y (List.replicate n b.closing)) :
    Matching (List.replicate n b.opening ++ (y ++ List.replicate n b.closing))
      (⟨b, n, 0, n + y.length⟩ :: pairs.map (Pair.shift n)) where
  joins p member := by
    rcases List.mem_cons.mp member with rfl | inInner
    · refine ⟨outer.opening_append_iff.mpr (.inl (Bracket.stands_replicate positive single)),
        outer.closing_append_iff.mpr (.inr ⟨y.length, by simp, ?_⟩), by simp⟩
      exact seam.closing_append_iff.mpr
        (.inr ⟨0, rfl, Bracket.stands_replicate positive single⟩)
    · obtain ⟨q, inPairs, rfl⟩ := List.mem_map.mp inInner
      obtain ⟨opening, closing, ordered⟩ := inner.joins q inPairs
      refine ⟨outer.opening_append_iff.mpr (.inr ⟨q.openAt, by simp [Pair.shift], ?_⟩),
        outer.closing_append_iff.mpr (.inr ⟨q.closeAt, by simp [Pair.shift], ?_⟩), ?_⟩
      · exact seam.opening_append_iff.mpr (.inl opening)
      · exact seam.closing_append_iff.mpr (.inl closing)
      · simp only [Pair.shift]
        omega
  closed d start count stands := by
    rcases outer.closing_append_iff.mp stands with inOpening | ⟨i, rfl, rest⟩
    · have same := List.eq_of_mem_replicate inOpening.mem
      cases b <;> cases d <;> contradiction
    · rw [List.length_replicate]
      rcases seam.closing_append_iff.mp rest with inInner | ⟨j, rfl, inClosing⟩
      · obtain ⟨q, member, rfl, rfl, rfl⟩ := inner.closed d i count inInner
        exact ⟨q.shift n, List.mem_cons_of_mem _ (List.mem_map_of_mem member), rfl, rfl, rfl⟩
      · have same : d = b := by
          have := List.eq_of_mem_replicate inClosing.mem
          cases b <;> cases d <;> first | rfl | contradiction
        subst same
        obtain ⟨rfl, rfl⟩ := inClosing.eq_of_replicate single
        exact ⟨_, List.mem_cons_self, rfl, rfl, rfl⟩
  clear := by
    refine List.pairwise_cons.mpr ⟨?_, List.pairwise_map.mpr (inner.clear.imp shift_clear)⟩
    intro p member
    obtain ⟨q, inPairs, rfl⟩ := List.mem_map.mp member
    have := (inner.joins q inPairs).closing.end_le
    refine .inr (.inr (.inr ?_))
    simp only [Pair.IsInside, Pair.shift]
    omega

end Matching

def Matched (s : Text) : Prop :=
  ∃ pairs, Matching s pairs

namespace Matched

variable {x y before between after : Text} {n : Nat}

theorem append (left : Matched x) (right : Matched y) (seam : Bracket.Seam x y) :
    Matched (x ++ y) := by
  obtain ⟨pairs, left⟩ := left
  obtain ⟨others, right⟩ := right
  exact ⟨_, left.append right seam⟩

theorem separated {mark : Text} {first last : Char} (left : Matched x) (right : Matched y)
    (starts : mark.head? = some first) (ends : mark.getLast? = some last)
    (plain : ∀ c, c ∈ mark → c ∉ Bracket.characters) : Matched (x ++ mark ++ y) := by
  have unclosed : Matched mark :=
    ⟨[], .of_no_closing fun b member => plain _ member b.closing_mem_characters⟩
  have differs : ∀ c, c ∈ mark → c ≠ '[' ∧ c ≠ ']' := by
    intro c member
    refine ⟨?_, ?_⟩ <;> rintro rfl <;> exact plain _ member (by decide)
  have firstPlain := differs first (List.mem_of_mem_head? starts)
  have lastPlain := differs last (List.mem_of_mem_getLast? ends)
  refine (left.append unclosed (Bracket.seam_of_head? starts firstPlain.1 firstPlain.2)).append
    right (Bracket.seam_of_getLast? ?_ lastPlain.1 lastPlain.2)
  rw [List.getLast?_append, ends]
  rfl

theorem enclosed {b : Bracket} (single : b ≠ .station) (left : Matched before)
    (inner : Matched between) (right : Matched after) :
    Matched (before ++ b.opening :: between ++ b.closing :: after) := by
  obtain ⟨pairs, inner⟩ := inner
  have differs : ∀ c, c = b.opening ∨ c = b.closing → c ≠ '[' ∧ c ≠ ']' := by
    cases b with
    | station => contradiction
    | group => rintro c (rfl | rfl) <;> decide
    | lock => rintro c (rfl | rfl) <;> decide
  have opening := differs _ (.inl rfl)
  have closing := differs _ (.inr rfl)
  have pair : Matched ([b.opening] ++ (between ++ [b.closing])) :=
    ⟨_, inner.enclose (n := 1) Nat.one_pos (fun _ => rfl)
      (Bracket.seam_of_getLast? rfl opening.1 opening.2)
      (Bracket.seam_of_head? rfl closing.1 closing.2)⟩
  have whole : before ++ b.opening :: between ++ b.closing :: after =
      before ++ ([b.opening] ++ (between ++ [b.closing])) ++ after := by simp
  rw [whole]
  refine (left.append pair (Bracket.seam_of_head? rfl opening.1 opening.2)).append right
    (Bracket.seam_of_getLast? ?_ closing.1 closing.2)
  rw [List.getLast?_append, List.getLast?_append, List.getLast?_concat]
  rfl

theorem inStation {front : Text} (positive : 0 < n) (ends : front.getLast? ≠ some ']')
    (opened : LastRun '[' n front.length front before between) (last : ']' ∉ after)
    (left : Matched before) (inner : Matched between) (right : Matched after) :
    Matched (front ++ List.replicate n ']' ++ after) := by
  obtain ⟨pairs, inner⟩ := inner
  have closings : (List.replicate n ']').head? = some ']' := by
    rw [List.head?_replicate, if_neg (by omega)]
  have innerEnds : between.getLast? ≠ some ']' := by
    intro final
    refine ends ?_
    rw [opened.text, List.getLast?_append, final]
    rfl
  have innerStarts : (between ++ List.replicate n ']').head? ≠ some '[' := by
    rw [List.head?_append, closings]
    cases starts : between.head? with
    | none => simp
    | some d => simpa [starts] using opened.starts
  have pair : Matched (List.replicate n '[' ++ (between ++ List.replicate n ']')) := by
    refine ⟨_, inner.enclose (b := .station) positive (fun differs => absurd rfl differs) ?_ ?_⟩
    · refine ⟨apart_of_head? innerStarts, apart_of_getLast? ?_⟩
      rw [List.getLast?_replicate, if_neg (by omega)]
      decide
    · refine ⟨apart_of_head? ?_, apart_of_getLast? innerEnds⟩
      change (List.replicate n ']').head? ≠ some '['
      rw [closings]
      decide
  have whole : front ++ List.replicate n ']' ++ after =
      before ++ (List.replicate n '[' ++ (between ++ List.replicate n ']')) ++ after := by
    rw [opened.text]
    simp only [List.append_assoc]
  rw [whole]
  refine (left.append pair ⟨apart_of_getLast? opened.ends, apart_of_head? ?_⟩).append right
    ⟨apart_of_getLast? ?_, apart_of_head? ?_⟩
  · rw [List.head?_append, List.head?_replicate, if_neg (by omega)]
    simp
  · rw [List.getLast?_append, List.getLast?_append, List.getLast?_append, List.getLast?_replicate,
      if_neg (by omega)]
    simp
  · exact fun starts => last (List.mem_of_mem_head? starts)

theorem of_word {s : Text} (word : Word s) (unlocked : '>' ∉ s) : Matched s := by
  refine ⟨[], .of_no_closing ?_⟩
  intro b
  cases b with
  | group => exact word.group
  | station => exact word.station
  | lock => exact unlocked

end Matched

namespace Reader

theorem yields_matched (r : Reader) (context : Context) (s : Text) :
    Reading.Yields (r.read context s) fun _ _ => Matched s := by
  refine r.read_yields (motive := fun _ s _ _ => Matched s) ?_ ?_ ?_ ?_ ?_ context s
  · intro _ s blank
    refine ⟨[], .of_no_closing ?_⟩
    intro b member
    have white := List.all_eq_true.mp blank _ member
    cases b <;> contradiction
  · intro _ s decoration token found
    have shape : Shape s (.name decoration token) := found ▸ shape_cut s
    cases shape with
    | name word unlocked => exact .of_word word unlocked
  · intro _ s operands parts found each
    have shape : Shape s (.sequence operands) := found ▸ shape_cut s
    cases shape with
    | group enclosed undivided =>
        obtain ⟨_, _, _, rfl, left, inner, right⟩ := exists_three_parts each
        exact .enclosed (b := .group) nofun left inner right
    | station positive ends opened undivided =>
        obtain ⟨_, _, _, rfl, left, inner, right⟩ := exists_three_parts each
        exact .inStation positive ends opened undivided.station left inner right
    | words undivided single spaced =>
        refine holds_of_pieces (fun s _ => Matched s) (by simp [sequenceMark]) ?_ each
        intro x y _ _ left right
        exact .separated left right rfl rfl (by simp [sequenceMark, Bracket.characters])
    | lock word enclosed last =>
        obtain ⟨_, _, _, rfl, left, inner, right⟩ := exists_three_parts each
        exact .enclosed (b := .lock) nofun left inner right
    | decorated word unlocked => exact .of_word word unlocked
  · intro _ s operands parts found each
    have shape : Shape s (.alternatives operands) := found ▸ shape_cut s
    cases shape with
    | alternatives undivided found =>
        refine holds_of_pieces (fun s _ => Matched s) (by simp [alternativeMark]) ?_ each
        intro x y _ _ left right
        exact .separated left right rfl rfl (by simp [alternativeMark, Bracket.characters])
  · intro _ s base continuation before after earlier later found inBase inContinuation
    have shape : Shape s (.exception base continuation) := found ▸ shape_cut s
    cases shape with
    | exception undivided =>
        have whole : Matched (_ ++ exceptionMark ++ _) :=
          inBase.separated inContinuation rfl rfl
            (by simp [exceptionMark, Bracket.characters])
        simpa [exceptionMark] using whole

/-- Whatever is read without an error has all closings matched, each with an opening of its own
kind and count to the left, and the pairs neither cross nor share a bracket. -/
theorem exists_matching (r : Reader) (log : List Diagnostic) (context : Context) (s : Text)
    (accepted : (r.readInto log context s).1.isOk = true) :
    ∃ pairs, Matching s pairs ∧
      pairs.Pairwise fun p q => p.openAt ≠ q.openAt ∧ p.closeAt ≠ q.closeAt := by
  obtain ⟨conditions, read⟩ := exists_ok_of_isOk accepted
  obtain ⟨_, _, pairs, matching⟩ := r.yields_matched context s log conditions _ read
  refine ⟨pairs, matching, matching.clear.imp_of_mem ?_⟩
  intro p q inPairs inPairs' clear
  exact Matching.distinct_of_clear clear (matching.joins p inPairs) (matching.joins q inPairs')

theorem exists_matching_nested :
    ((⟨.empty, {}⟩ : Reader).readInto [] {} "X{A[[B]]}<C>[".toList).1.isOk = true ∧
      ∃ pairs, Matching "X{A[[B]]}<C>[".toList pairs ∧
        pairs.Pairwise fun p q => p.openAt ≠ q.openAt ∧ p.closeAt ≠ q.closeAt :=
  ⟨by decide +kernel, exists_matching ⟨.empty, {}⟩ [] {} _ (by decide +kernel)⟩

example : ((⟨.empty, {}⟩ : Reader).readInto [] {} "{[A}]".toList).1.isOk = false := by
  decide +kernel

end Reader

end SignalBox
