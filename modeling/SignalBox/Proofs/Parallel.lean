import SignalBox.Proofs.Likeness

/-! Two readings side by side. They may know other devices or start from other places; where neither
looks at the difference, they go the same way step by step. So they are stopped by the same error,
or they come to trees of one shape. -/

namespace SignalBox

open Text Formula Formula.Reading

namespace Condition

/-- Trees of one shape. Each condition of the one agrees with the condition of the other that stands
in its place. -/
inductive Alike (agree : Condition → Condition → Prop) : Condition → Condition → Prop
  | node (own : agree c d) (children : List.Forall₂ (Alike agree) c.children d.children) :
      Alike agree c d

structure Congruence (agree : Condition → Condition → Prop) : Prop where
  isChoice : agree c d → c.isChoice = d.isChoice
  children : agree c d → agree { c with children := cs } { d with children := ds }

section Congruence

variable {agree : Condition → Condition → Prop} {c d : Condition}
  {cs ds continuation others : List Condition}

theorem Congruence.isChoice_eq (congruence : Congruence agree) (alike : Alike agree c d) :
    c.isChoice = d.isChoice := by
  cases alike with
  | node own => exact congruence.isChoice own

theorem Congruence.followedBy (congruence : Congruence agree) (alike : Alike agree c d)
    (follow : List.Forall₂ (Alike agree) continuation others) :
    Alike agree (c.followedBy continuation) (d.followedBy others) := by
  cases alike with
  | node own children => exact .node (congruence.children own) (List.rel_append children follow)

theorem Congruence.map_followedBy (congruence : Congruence agree)
    (alike : List.Forall₂ (Alike agree) cs ds)
    (follow : List.Forall₂ (Alike agree) continuation others) :
    List.Forall₂ (Alike agree) (cs.map (·.followedBy continuation))
      (ds.map (·.followedBy others)) := by
  rw [List.forall₂_map_left_iff, List.forall₂_map_right_iff]
  exact alike.imp fun _ _ each => congruence.followedBy each follow

theorem Congruence.continueWith (congruence : Congruence agree)
    (alike : List.Forall₂ (Alike agree) cs ds)
    (follow : List.Forall₂ (Alike agree) continuation others) :
    List.Forall₂ (Alike agree) (Reader.continueWith continuation cs)
      (Reader.continueWith others ds) := by
  cases alike with
  | nil => exact .nil
  | @cons first second rest restToo leading later =>
      rw [Reader.continueWith, Reader.continueWith, congruence.isChoice_eq leading]
      split
      · cases leading with
        | node own branches =>
            exact .cons
              (.node (congruence.children own) (congruence.map_followedBy branches follow)) later
      · exact congruence.map_followedBy (.cons leading later) follow

end Congruence

end Condition

namespace Formula.Reading

inductive Paired (related : α → β → Prop) :
    Except Formula.Error α → Except Formula.Error β → Prop
  | error (e : Formula.Error) : Paired related (.error e) (.error e)
  | ok (results : related a b) : Paired related (.ok a) (.ok b)

/-- The outcomes are paired, and of what `told` picks out both readings add the same. -/
def Parallel (told : Diagnostic → Bool) (related : α → β → Prop) (x : Reading α)
    (y : Reading β) : Prop :=
  ∃ outcome added other others, RunsTo x outcome added ∧ RunsTo y other others ∧
    Paired related outcome other ∧ added.filter told = others.filter told

variable {α β : Type} {x : Reading α} {y : Reading β} {told : Diagnostic → Bool}
  {related : α → β → Prop}

def telling (told : Diagnostic → Bool) : Likeness where
  errors := Eq
  findings added others := added.filter told = others.filter told
  nil := rfl
  append first second := by rw [List.filter_append, List.filter_append, first, second]

theorem parallel_of_akin (akin : (telling told).Akin related x y) : Parallel told related x y := by
  obtain ⟨outcome, added, other, others, runs, runsToo, alike, same⟩ := akin
  refine ⟨outcome, added, other, others, runs, runsToo, ?_, same⟩
  cases alike with
  | error same =>
      cases same
      exact .error _
  | ok together => exact .ok together

theorem Parallel.run (parallel : Parallel told related x y) (log : List Diagnostic) :
    Paired related (x.run log).1 (y.run log).1 ∧
      (x.run log).2.filter told = (y.run log).2.filter told := by
  obtain ⟨outcome, added, other, others, runs, runsToo, paired, same⟩ := parallel
  rw [runs, runsToo]
  refine ⟨paired, ?_⟩
  rw [List.filter_append, List.filter_append, same]

end Formula.Reading

namespace Reader

open Condition Likeness

/-- What keeps two readers in step. `beside` says from which two places they read a text, `agree`
how the conditions belong together that they make, `told` which findings they share. The places may
differ in what an operand is read for, but not in how deep it is and where it starts. -/
structure Lockstep (r q : Reader) (beside : Context → Context → Text → Prop)
    (agree : Condition → Condition → Prop) (told : Diagnostic → Bool) : Prop where
  limit : r.options.depthLimit = q.options.depthLimit
  depth : beside context place s → context.depth = place.depth
  offset : beside context place s → context.offset = place.offset
  operand : beside context place s → o ∈ (cut s).operands →
    beside (context.enter o) (place.enter o) o.text
  named : beside context place s → cut s = .name decoration token →
    agree (r.namedCondition context decoration token) (q.namedCondition place decoration token)
  findings : beside context place s → (r.nameFindings context token).filter told =
    (q.nameFindings place token).filter told
  choice : beside context place s → cut s = .alternatives operands →
    agree (.choice s context.station context.partialLock branches)
      (.choice s place.station place.partialLock others)
  isChoice : agree c d → c.isChoice = d.isChoice
  children : agree c d → agree { c with children := cs } { d with children := ds }

section Lockstep

variable {r q : Reader} {beside : Context → Context → Text → Prop}
  {agree : Condition → Condition → Prop} {told : Diagnostic → Bool} {context place : Context}
  {s : Text}

theorem Lockstep.congruence (lockstep : Lockstep r q beside agree told) : Congruence agree :=
  ⟨lockstep.isChoice, lockstep.children⟩

theorem blame_eq_of_offset (same : context.offset = place.offset) (s delimiter : Text) :
    blame context s delimiter = blame place s delimiter := by
  rw [blame, blame, same]

theorem detachedException_eq_of_offset (same : context.offset = place.offset) (s : Text)
    (base continuation : Operand) : detachedException context s base continuation =
      detachedException place s base continuation := by
  rw [detachedException, detachedException, same]

theorem Lockstep.readName (lockstep : Lockstep r q beside agree told)
    (placed : beside context place s) {decoration : Decoration} {token : Text}
    (found : cut s = .name decoration token) :
    (telling told).Akin (Alike agree) (r.readName context decoration token)
      (q.readName place decoration token) := by
  obtain ⟨_, _, runs, rfl, rfl⟩ := r.ends_readName context decoration token
  obtain ⟨_, _, runsToo, rfl, rfl⟩ := q.ends_readName place decoration token
  exact ⟨_, _, _, _, runs, runsToo, .ok (.node (lockstep.named placed found) .nil),
    lockstep.findings placed⟩

theorem akin_attach {like : Likeness} (congruence : Congruence agree)
    {before beforeToo after afterToo : List Condition} {d d' : Diagnostic}
    (first : List.Forall₂ (Alike agree) before beforeToo)
    (second : List.Forall₂ (Alike agree) after afterToo) (found : like.findings [d] [d']) :
    like.Akin (List.Forall₂ (Alike agree))
      (do
        if before = [] ∧ after ≠ [] then
          warn d
        pure (continueWith after before))
      (do
        if beforeToo = [] ∧ afterToo ≠ [] then
          warn d'
        pure (continueWith afterToo beforeToo)) := by
  have attached := congruence.continueWith first second
  have same : (before = [] ∧ after ≠ []) ↔ (beforeToo = [] ∧ afterToo ≠ []) := by
    cases first <;> cases second <;> simp
  by_cases detached : before = [] ∧ after ≠ []
  · rw [if_pos detached, if_pos (same.mp detached)]
    apply (akin_warn found).bind
    intro _ _ _
    exact akin_pure attached
  · rw [if_neg detached, if_neg (mt same.mpr detached)]
    exact akin_pure attached

theorem Lockstep.parallel (lockstep : Lockstep r q beside agree told)
    (placed : beside context place s) :
    Parallel told (List.Forall₂ (Alike agree)) (r.read context s) (q.read place s) := by
  apply parallel_of_akin
  generalize size : byteLength s = n
  induction n using Nat.strongRecOn generalizing context place s with
  | ind n ih =>
      have operand : ∀ o, o ∈ (cut s).operands → (telling told).Akin (List.Forall₂ (Alike agree))
          (r.read (context.enter o) o.text) (q.read (place.enter o) o.text) := by
        intro o member
        exact ih _ (size ▸ byteLength_lt_of_mem_cut member) (lockstep.operand placed member) rfl
      rw [read_eq, read_eq, ← lockstep.limit, ← lockstep.depth placed]
      split
      · exact akin_pure .nil
      · split
        · exact akin_throw rfl
        · cases found : cut s with
          | malformed delimiter =>
              dsimp only
              rw [blame_eq_of_offset (lockstep.offset placed)]
              exact akin_throw rfl
          | name decoration token =>
              apply (lockstep.readName placed found).bind
              intro c d alike
              exact akin_pure (.cons alike .nil)
          | sequence operands =>
              rw [found] at operand
              exact akin_gather (List.forall₂_same.mpr operand)
          | alternatives operands =>
              rw [found] at operand
              apply (akin_gather (List.forall₂_same.mpr operand)).bind
              intro branches others alike
              exact akin_pure (.cons (.node (lockstep.choice placed found) alike) .nil)
          | exception base continuation =>
              rw [found] at operand
              apply (operand base (by simp [Cut.operands])).bind
              intro before beforeToo first
              apply (operand continuation (by simp [Cut.operands])).bind
              intro after afterToo second
              apply akin_attach lockstep.congruence first second
              rw [detachedException_eq_of_offset (lockstep.offset placed)]
              rfl

end Lockstep

end Reader

end SignalBox
