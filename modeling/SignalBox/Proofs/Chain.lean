import SignalBox.Proofs.Step

/-! Chains: formulas built part by part from the left to the right. A cut sees only the delimiter
that stands furthest right and keeps no stack, yet a well-formed chain is read as it is built. -/

namespace SignalBox

open Text Formula

/-- A text without brackets or exceptions, or a chain followed by a group, a station scope or an
exception and by such a text. What the brackets hold is a chain again. -/
inductive Chain where
  | plain (t : Text)
  | group (front inner : Chain) (after : Text)
  | station (front : Chain) (n : Nat) (inner : Chain) (after : Text)
  | exception (front : Chain) (after : Text)

namespace Chain

def text : Chain → Text
  | plain t => t
  | group front inner after => front.text ++ '{' :: inner.text ++ '}' :: after
  | station front n inner after =>
      front.text ++ List.replicate n '[' ++ inner.text ++ List.replicate n ']' ++ after
  | exception front after => front.text ++ '但' :: after

def marks : List Char :=
  ['{', '}', '[', ']', '但']

def Plain (t : Text) : Prop :=
  ∀ c, c ∈ marks → c ∉ t

instance (t : Text) : Decidable (Plain t) :=
  List.decidableBAll (fun c => c ∉ t) marks

def Groupless : Chain → Prop
  | plain _ => True
  | group _ _ _ => False
  | station front _ inner _ => front.Groupless ∧ inner.Groupless
  | exception front _ => front.Groupless

def scopes : Chain → List Nat
  | plain _ => []
  | group front inner _ => front.scopes ++ inner.scopes
  | station front n inner _ => front.scopes ++ n :: inner.scopes
  | exception front _ => front.scopes

def BeginsWithScope : Chain → Prop
  | plain _ => False
  | group front _ _ => front.BeginsWithScope
  | station front _ _ _ => front = plain [] ∨ front.BeginsWithScope
  | exception front _ => front.BeginsWithScope

def EndsWithScope : Chain → Prop
  | station _ _ _ after => after = []
  | _ => False

/-- No group stands in a group and no scope in a scope of as many brackets, and no bracket of a
scope touches a bracket of a scope inside it. -/
inductive WellFormed : Chain → Prop
  | plain (unmarked : Plain t) : WellFormed (plain t)
  | group (front : WellFormed c) (inner : WellFormed d) (flat : d.Groupless)
      (unmarked : Plain after) : WellFormed (group c d after)
  | station (front : WellFormed c) (inner : WellFormed d) (positive : 0 < n)
      (distinct : n ∉ d.scopes) (begins : ¬ d.BeginsWithScope) (ends : ¬ d.EndsWithScope)
      (unmarked : Plain after) : WellFormed (station c n d after)
  | exception (front : WellFormed c) (unmarked : Plain after) : WellFormed (exception c after)

variable {c d : Chain} {s t after : Text} {m : Char} {n i : Nat}

theorem Plain.undivided (unmarked : Plain t) : Undivided t :=
  ⟨unmarked '}' (by decide), unmarked ']' (by decide), unmarked '但' (by decide)⟩

theorem Plain.getLast?_append (unmarked : Plain t) (mark : m ∈ marks)
    (ends : (s ++ t).getLast? = some m) : t = [] ∧ s.getLast? = some m := by
  rw [List.getLast?_append] at ends
  cases last : t.getLast? with
  | none =>
      rw [last] at ends
      exact ⟨List.getLast?_eq_none_iff.mp last, ends⟩
  | some x =>
      rw [last] at ends
      cases ends
      exact absurd (List.mem_of_getLast? last) (unmarked m mark)

theorem WellFormed.opening_not_mem (wellFormed : c.WellFormed) (flat : c.Groupless) :
    '{' ∉ c.text := by
  induction wellFormed with
  | plain unmarked => exact unmarked '{' (by decide)
  | group => exact flat.elim
  | station _ _ _ _ _ _ unmarked ihFront ihInner =>
      have absent := unmarked '{' (by decide)
      simp [text, ihFront flat.1, ihInner flat.2, absent]
  | exception _ unmarked ih =>
      have absent := unmarked '{' (by decide)
      simp [text, ih flat, absent]

theorem WellFormed.endsWithScope_of_getLast? (wellFormed : c.WellFormed)
    (bracket : m = '[' ∨ m = ']') (ends : c.text.getLast? = some m) :
    m = ']' ∧ c.EndsWithScope := by
  have mark : m ∈ marks := by
    rcases bracket with rfl | rfl <;> decide
  cases wellFormed with
  | plain unmarked => exact absurd (List.mem_of_getLast? ends) (unmarked m mark)
  | @group c d after _ _ _ unmarked =>
      have whole : (c.group d after).text = c.text ++ '{' :: d.text ++ ['}'] ++ after := by
        simp [text]
      rw [whole] at ends
      have last := (unmarked.getLast?_append mark ends).2
      rw [List.getLast?_concat] at last
      cases last
      rcases bracket with differs | differs <;> contradiction
  | station _ _ positive _ _ _ unmarked =>
      obtain ⟨rfl, last⟩ := unmarked.getLast?_append mark ends
      rw [List.getLast?_append, List.getLast?_replicate, if_neg (by omega)] at last
      cases last
      exact ⟨rfl, rfl⟩
  | @exception c after _ unmarked =>
      have whole : (c.exception after).text = c.text ++ ['但'] ++ after := by simp [text]
      rw [whole] at ends
      have last := (unmarked.getLast?_append mark ends).2
      rw [List.getLast?_concat] at last
      cases last
      rcases bracket with differs | differs <;> contradiction

theorem WellFormed.getLast?_ne_opening (wellFormed : c.WellFormed) :
    c.text.getLast? ≠ some '[' := by
  intro ends
  exact absurd (wellFormed.endsWithScope_of_getLast? (.inl rfl) ends).1 (by decide)

theorem WellFormed.eq_plain_of_text (wellFormed : c.WellFormed) (empty : c.text = []) :
    c = .plain [] := by
  cases wellFormed with
  | plain => exact congrArg Chain.plain empty
  | group => simp [text] at empty
  | station _ _ positive =>
      simp [text] at empty
      omega
  | exception => simp [text] at empty

theorem head?_append_cases {rest : Text} (starts : (s ++ rest).head? = some m) :
    (s = [] ∧ rest.head? = some m) ∨ s.head? = some m := by
  cases s with
  | nil => exact .inl ⟨rfl, starts⟩
  | cons d s => exact .inr starts

theorem WellFormed.beginsWithScope_of_head? (wellFormed : c.WellFormed)
    (starts : c.text.head? = some '[') : c.BeginsWithScope := by
  induction wellFormed with
  | plain unmarked => exact absurd (List.mem_of_mem_head? starts) (unmarked '[' (by decide))
  | group front _ _ _ ih =>
      rw [text, List.append_assoc] at starts
      rcases head?_append_cases starts with ⟨_, differs⟩ | inFront
      · simp at differs
      · exact ih inFront
  | station front _ _ _ _ _ _ ih =>
      rw [text] at starts
      simp only [List.append_assoc] at starts
      rcases head?_append_cases starts with ⟨empty, _⟩ | inFront
      · exact .inl (front.eq_plain_of_text empty)
      · exact .inr (ih inFront)
  | exception front _ ih =>
      rw [text] at starts
      rcases head?_append_cases starts with ⟨_, differs⟩ | inFront
      · simp at differs
      · exact ih inFront

theorem WellFormed.mem_scopes_of_run (wellFormed : c.WellFormed) (run : Run '[' c.text i n) :
    n ∈ c.scopes := by
  induction wellFormed generalizing i with
  | plain unmarked => exact absurd run.mem (unmarked '[' (by decide))
  | @group c d after _ _ _ unmarked ihFront ihInner =>
      have whole : (c.group d after).text =
          c.text ++ (['{'] ++ (d.text ++ ('}' :: after))) := by simp [text]
      rw [whole] at run
      rcases run.of_append (apart_of_head? (by simp)) with ⟨_, run⟩ | ⟨_, run⟩
      · exact List.mem_append_left _ (ihFront run)
      rcases run.of_append (apart_of_getLast? (by simp)) with ⟨_, run⟩ | ⟨_, run⟩
      · exact absurd run.mem (by decide)
      rcases run.of_append (apart_of_head? (by simp)) with ⟨_, run⟩ | ⟨_, run⟩
      · exact List.mem_append_right _ (ihInner run)
      · exact absurd run.mem (by simp [unmarked '[' (by decide)])
  | @station c d k after front inner positive _ begins _ unmarked ihFront ihInner =>
      have whole : (c.station k d after).text =
          c.text ++ (List.replicate k '[' ++ (d.text ++ (List.replicate k ']' ++ after))) := by
        simp [text]
      have closed : (List.replicate k ']' ++ after).head? ≠ some '[' := by
        rw [List.head?_append, List.head?_replicate, if_neg (by omega)]
        simp
      have starts : (d.text ++ (List.replicate k ']' ++ after)).head? ≠ some '[' := by
        intro starts
        rcases head?_append_cases starts with ⟨_, afterInner⟩ | inInner
        · exact closed afterInner
        · exact begins (inner.beginsWithScope_of_head? inInner)
      rw [whole] at run
      rcases run.of_append (apart_of_getLast? front.getLast?_ne_opening) with
        ⟨_, run⟩ | ⟨_, run⟩
      · exact List.mem_append_left _ (ihFront run)
      rcases run.of_append (apart_of_head? starts) with ⟨_, run⟩ | ⟨_, run⟩
      · obtain ⟨_, rfl⟩ := run.eq_of_replicate
        exact List.mem_append_right _ List.mem_cons_self
      rcases run.of_append (apart_of_head? closed) with ⟨_, run⟩ | ⟨_, run⟩
      · exact List.mem_append_right _ (List.mem_cons_of_mem _ (ihInner run))
      · exact absurd run.mem (by simp [unmarked '[' (by decide)])
  | @exception c after _ unmarked ih =>
      rw [text] at run
      rcases run.of_append (apart_of_head? (by simp)) with ⟨_, run⟩ | ⟨_, run⟩
      · exact ih run
      · exact absurd run.mem (by simp [unmarked '[' (by decide)])

theorem WellFormed.lastRun (front : c.WellFormed) (inner : d.WellFormed) (positive : 0 < n)
    (distinct : n ∉ d.scopes) (begins : ¬ d.BeginsWithScope) :
    LastRun '[' n (c.text ++ List.replicate n '[' ++ d.text).length
      (c.text ++ List.replicate n '[' ++ d.text) c.text d.text :=
  lastRun_of_parts positive front.getLast?_ne_opening
    (fun starts => begins (inner.beginsWithScope_of_head? starts))
    fun _ run => distinct (inner.mem_scopes_of_run run)

theorem WellFormed.getLast?_ne_closing (inner : d.WellFormed) (ends : ¬ d.EndsWithScope)
    (positive : 0 < n) (t : Text) :
    (t ++ List.replicate n '[' ++ d.text).getLast? ≠ some ']' := by
  intro final
  rw [List.getLast?_append] at final
  cases last : d.text.getLast? with
  | none =>
      rw [last, List.getLast?_append, List.getLast?_replicate, if_neg (by omega)] at final
      simp at final
  | some m =>
      rw [last] at final
      cases final
      exact ends (inner.endsWithScope_of_getLast? (.inr rfl) last).2

section Evaluation

open Reader

/-- Starts with the first plain text and goes through the parts from the left to the right, with
the conditions read so far. No part looks at what comes after it. -/
def evaluate (r : Reader) (context : Context) : Chain → Reading (List Condition)
  | plain t => r.read context t
  | group front inner after => do
      let sofar ← front.evaluate r context
      let grouped ← inner.evaluate r (context.behind (front.text ++ ['{']))
      let later ← r.read (context.behind (front.text ++ ['{'] ++ inner.text ++ ['}'])) after
      pure (sofar ++ grouped ++ later)
  | station front n inner after => do
      let sofar ← front.evaluate r context
      let further ← inner.evaluate r
        { context.behind (front.text ++ List.replicate n '[') with
          station := max context.station (UInt32.ofNatClamp n) }
      let later ← r.read (context.behind
        (front.text ++ List.replicate n '[' ++ inner.text ++ List.replicate n ']')) after
      pure (sofar ++ further ++ later)
  | exception front after => do
      let sofar ← front.evaluate r context
      let later ← r.read (context.behind (front.text ++ ['但'])) after
      if sofar = [] ∧ later ≠ [] then
        Reading.warn (detachedException context (front.text ++ '但' :: after)
          ⟨0, front.text, .beside⟩ ⟨byteLength (front.text ++ ['但']), after, .beside⟩)
      pure (continueWith later sofar)

theorem read_text (r : Reader) (wellFormed : c.WellFormed) (context : Context)
    (room : context.depth + byteLength c.text ≤ r.options.depthLimit) :
    r.read context c.text = c.evaluate r context := by
  induction wellFormed generalizing context with
  | plain => rfl
  | @group c d after front inner flat unmarked ihFront ihInner =>
      have size : byteLength (c.group d after).text =
          byteLength c.text + 1 + byteLength d.text + 1 + byteLength after := by
        simp [text, Char.utf8Size]
        omega
      rw [size] at room
      let place := context.behind (c.text ++ ['{'])
      have depth : place.depth = context.depth := rfl
      have deeper : r.read (place.enter ⟨0, d.text, .inside⟩) d.text = d.evaluate r place :=
        (r.read_deeper place d.text (by omega)).trans (ihInner place (by omega))
      rw [text, read_enclosure
        (isBlank_eq_false_of_mem (c := '{') (by simp) (by decide)) (by omega)
        (cut_group (inner.opening_not_mem flat) unmarked.undivided)]
      dsimp only
      rw [ihFront context (by omega), deeper, evaluate]
  | @station c d n after front inner positive distinct begins ends unmarked ihFront ihInner =>
      have size : byteLength (c.station n d after).text =
          byteLength c.text + n + byteLength d.text + n + byteLength after := by
        simp [text, byteLength_replicate, Char.utf8Size]
        omega
      rw [size] at room
      let place : Context :=
        { context.behind (c.text ++ List.replicate n '[') with
          station := max context.station (UInt32.ofNatClamp n) }
      have depth : place.depth = context.depth := rfl
      have deeper : r.read ((context.behind (c.text ++ List.replicate n '[')).enter
          ⟨0, d.text, .inStation (UInt32.ofNatClamp n)⟩) d.text = d.evaluate r place :=
        (r.read_deeper place d.text (by omega)).trans (ihInner place (by omega))
      rw [text, read_enclosure
        (isBlank_eq_false_of_mem (c := '[') (by simp; omega) (by decide)) (by omega)
        (cut_station positive (inner.getLast?_ne_closing ends positive c.text)
          (front.lastRun inner positive distinct begins) unmarked.undivided)]
      simp only [copies_singleton]
      rw [ihFront context (by omega), deeper, evaluate]
  | @exception c after front unmarked ih =>
      rw [text, byteLength_append] at room
      rw [text, read_before_exception (by omega) unmarked.undivided, evaluate,
        ih context (by omega)]

/-- Below the limit a well-formed chain is read as it is built: the outcome, the warnings and
all places are those of the parts, taken from the left to the right. -/
theorem readInto_text (r : Reader) (log : List Diagnostic) (station : UInt32) (partialLock : Bool)
    (wellFormed : c.WellFormed) (room : byteLength c.text ≤ r.options.depthLimit) :
    r.readInto log { station := station, partialLock := partialLock } c.text =
      (c.evaluate r { station := station, partialLock := partialLock }).run log := by
  rw [readInto, read_text r wellFormed]
  change 0 + byteLength c.text ≤ _
  omega

def nested : Chain :=
  station (group (plain []) (plain ['A']) []) 1
    (exception (station (plain ['X']) 2 (plain ['B']) ['Y']) ['C']) ['D']

theorem readInto_text_nested :
    nested.text = "{A}[X[[B]]Y但C]D".toList ∧ nested.WellFormed ∧ byteLength nested.text ≤ 64 ∧
      (⟨.empty, {}⟩ : Reader).readInto [] { station := 1, partialLock := true } nested.text =
        (nested.evaluate ⟨.empty, {}⟩ { station := 1, partialLock := true }).run [] ∧
      ((⟨.empty, {}⟩ : Reader).readInto [] { station := 1, partialLock := true } nested.text).1 =
        .ok [.ofLetter 'A' 1 true [], .ofLetter 'X' 1 true [.ofLetter 'C' 1 true []],
          .ofLetter 'B' 2 true [.ofLetter 'C' 1 true []],
          .ofLetter 'Y' 1 true [.ofLetter 'C' 1 true []], .ofLetter 'D' 1 true []] := by
  have wellFormed : nested.WellFormed := by
    refine .station (.group (.plain (by decide)) (.plain (by decide)) trivial (by decide))
      (.exception (.station (.plain (by decide)) (.plain (by decide)) (by decide) (by decide)
        (by simp [BeginsWithScope]) (by simp [EndsWithScope]) (by decide)) (by decide))
      (by decide) (by decide) (by simp [BeginsWithScope]) (by simp [EndsWithScope]) (by decide)
  have room : byteLength nested.text ≤ 64 := by decide
  exact ⟨by decide, wellFormed, room, readInto_text ⟨.empty, {}⟩ [] 1 true wellFormed room,
    Except.toOption_eq_some_iff.mp (by decide +kernel)⟩

end Evaluation

end Chain

end SignalBox
