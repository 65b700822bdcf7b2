import SignalBox.Proofs.Step

/-! A relational logic of readings: one rule for each way to make a reading of others. Of two errors
and of the findings of two readings only so much is compared as a likeness asks for. By one such
likeness the place where a text stands in a formula changes nothing but positions. -/

namespace SignalBox

open Text Formula Formula.Reading

namespace Formula

/-- When two errors count as the same, and when the findings of two readings do. -/
structure Likeness where
  errors : Formula.Error → Formula.Error → Prop
  findings : List Diagnostic → List Diagnostic → Prop
  nil : findings [] []
  append : findings added others → findings more extra → findings (added ++ more) (others ++ extra)

namespace Likeness

def oneByOne (errors : Formula.Error → Formula.Error → Prop)
    (finding : Diagnostic → Diagnostic → Prop) : Likeness where
  errors := errors
  findings := List.Forall₂ finding
  nil := .nil
  append first second := List.rel_append first second

inductive Outcome (like : Likeness) (related : α → β → Prop) :
    Except Formula.Error α → Except Formula.Error β → Prop
  | error (same : like.errors e f) : Outcome like related (.error e) (.error f)
  | ok (results : related a b) : Outcome like related (.ok a) (.ok b)

/-- The outcomes are alike, and so are the findings that both readings add. -/
def Akin (like : Likeness) (related : α → β → Prop) (x : Reading α) (y : Reading β) : Prop :=
  ∃ outcome added other others, RunsTo x outcome added ∧ RunsTo y other others ∧
    like.Outcome related outcome other ∧ like.findings added others

variable {α β γ δ : Type} {like weaker : Likeness} {related : α → β → Prop} {x : Reading α}
  {y : Reading β} {f : α → Reading γ} {g : β → Reading δ} {a : α} {b : β}

theorem akin_pure (results : related a b) : like.Akin related (pure a) (pure b) :=
  ⟨_, _, _, _, runsTo_pure a, runsTo_pure b, .ok results, like.nil⟩

theorem akin_throw {e e' : Formula.Error} (same : like.errors e e') :
    like.Akin related (throw e) (throw e') :=
  ⟨_, _, _, _, runsTo_throw e, runsTo_throw e', .error same, like.nil⟩

theorem akin_warn {d d' : Diagnostic} (same : like.findings [d] [d']) :
    like.Akin Eq (warn d) (warn d') :=
  ⟨_, _, _, _, runsTo_warn d, runsTo_warn d', .ok rfl, same⟩

theorem Akin.bind {results : γ → δ → Prop} (first : like.Akin related x y)
    (next : ∀ a b, related a b → like.Akin results (f a) (g b)) :
    like.Akin results (x >>= f) (y >>= g) := by
  obtain ⟨outcome, added, other, others, runs, runsToo, alike, found⟩ := first
  cases alike with
  | error same => exact ⟨_, added, _, others, runs.failed, runsToo.failed, .error same, found⟩
  | ok together =>
      obtain ⟨outcome, more, other, extra, last, lastToo, alike, later⟩ := next _ _ together
      exact ⟨outcome, added ++ more, other, others ++ extra, runs.bind last, runsToo.bind lastToo,
        alike, like.append found later⟩

theorem akin_gather {read : γ → Reading (List α)} {reread : δ → Reading (List β)}
    {texts : List γ} {others : List δ}
    (each : List.Forall₂ (fun t u => like.Akin (List.Forall₂ related) (read t) (reread u))
      texts others) :
    like.Akin (List.Forall₂ related) (gather read texts) (gather reread others) := by
  induction each with
  | nil => exact akin_pure .nil
  | cons first later ih =>
      rw [gather, gather]
      apply first.bind
      intro results resultsToo same
      apply ih.bind
      intro behind behindToo sameLater
      exact akin_pure (List.rel_append same sameLater)

theorem Akin.mono {more : α → β → Prop} (akin : like.Akin related x y)
    (errors : ∀ e e', like.errors e e' → weaker.errors e e')
    (findings : ∀ added others, like.findings added others → weaker.findings added others)
    (results : ∀ a b, related a b → more a b) : weaker.Akin more x y := by
  obtain ⟨outcome, added, other, others, runs, runsToo, alike, found⟩ := akin
  refine ⟨outcome, added, other, others, runs, runsToo, ?_, findings _ _ found⟩
  cases alike with
  | error same => exact .error (errors _ _ same)
  | ok together => exact .ok (results _ _ together)

end Likeness

def Error.unplaced : Formula.Error → Formula.Error
  | .malformed fragment delimiter _ => .malformed fragment delimiter 0
  | .tooDeep limit fragment => .tooDeep limit fragment

def Likeness.displaced : Likeness :=
  .oneByOne (fun e e' => e.unplaced = e'.unplaced)
    fun d d' => { d with position? := none } = { d' with position? := none }

end Formula

namespace Reader

open Likeness

variable {r : Reader} {context : Context} {s : Text} {conditions : List Condition}
  {added : List Diagnostic}

theorem Context.enter_offset (context : Context) (offset : Nat) (o : Operand) :
    Context.enter { context with offset } o =
      { context.enter o with offset := offset + o.offset } := by
  rw [enter, enter]
  cases o.place <;> rfl

theorem akin_readName (r : Reader) (context : Context) (offset : Nat) (decoration : Decoration)
    (token : Text) :
    displaced.Akin Eq (r.readName { context with offset } decoration token)
      (r.readName context decoration token) := by
  obtain ⟨_, _, runs, rfl, rfl⟩ := r.ends_readName { context with offset } decoration token
  obtain ⟨_, _, runsToo, rfl, rfl⟩ := r.ends_readName context decoration token
  refine ⟨_, _, _, _, runs, runsToo, .ok rfl, ?_⟩
  rw [nameFindings, nameFindings]
  split
  · exact .cons rfl .nil
  · exact .nil

theorem akin_offset (r : Reader) (context : Context) (offset : Nat) (s : Text) :
    displaced.Akin Eq (r.read { context with offset } s) (r.read context s) := by
  generalize size : byteLength s = n
  induction n using Nat.strongRecOn generalizing context offset s with
  | ind n ih =>
      have operand : ∀ o, o ∈ (cut s).operands → displaced.Akin Eq
          (r.read (Context.enter { context with offset } o) o.text)
          (r.read (context.enter o) o.text) := by
        intro o member
        rw [Context.enter_offset]
        exact ih _ (size ▸ byteLength_lt_of_mem_cut member) _ _ _ rfl
      have gathered : ∀ operands, (cut s).operands = operands → displaced.Akin Eq
          (gather (fun o => r.read (Context.enter { context with offset } o) o.text) operands)
          (gather (fun o => r.read (context.enter o) o.text) operands) := by
        intro operands parts
        rw [← List.forall₂_eq_eq_eq] at operand ⊢
        apply akin_gather
        rw [List.forall₂_same]
        exact fun o member => operand o (parts ▸ member)
      rw [read_eq, read_eq]
      split
      · exact akin_pure rfl
      · split
        · exact akin_throw rfl
        · cases found : cut s with
          | malformed delimiter => exact akin_throw rfl
          | name decoration token =>
              apply (r.akin_readName context offset decoration token).bind
              rintro c _ rfl
              exact akin_pure rfl
          | sequence operands => exact gathered operands (congrArg Cut.operands found)
          | alternatives operands =>
              apply (gathered operands (congrArg Cut.operands found)).bind
              rintro branches _ rfl
              exact akin_pure rfl
          | exception base continuation =>
              apply (operand base (by simp [found, Cut.operands])).bind
              rintro before _ rfl
              apply (operand continuation (by simp [found, Cut.operands])).bind
              rintro after _ rfl
              dsimp only
              split
              · refine Akin.bind (akin_warn (.cons rfl .nil)) ?_
                rintro _ _ _
                exact akin_pure rfl
              · exact akin_pure rfl

theorem Concludes.gives (concludes : r.Concludes context s (.ok conditions) added) :
    r.Gives context s conditions := by
  intro offset
  obtain ⟨outcome, more, other, others, runs, runsToo, alike, _⟩ := r.akin_offset context offset s
  obtain ⟨rfl, rfl⟩ := concludes.unique runsToo
  cases alike with
  | ok same => exact ⟨more, same ▸ runs⟩

end Reader

end SignalBox
