import SignalBox.Proofs.Step

/-! What an exception is attached to. The branches of a leading choice go on with it, and then
nothing else does; without a leading choice every condition goes on with it, later choices too. So
only some lists of conditions are followed branch by branch. -/

namespace SignalBox

open Text Formula

namespace Condition

def branchedBy (c : Condition) (continuation : List Condition) : Condition :=
  if c.isChoice then { c with children := c.children.map (·.followedBy continuation) }
  else c.followedBy continuation

variable {c : Condition} {cs continuation : List Condition}

theorem followedBy_ne_self (continues : continuation ≠ []) : c.followedBy continuation ≠ c := by
  intro same
  have children : c.children ++ continuation = c.children := congrArg Condition.children same
  exact continues (List.append_right_eq_self.mp children)

theorem map_followedBy_eq_self_iff (continues : continuation ≠ []) :
    cs.map (·.followedBy continuation) = cs ↔ cs = [] := by
  cases cs with
  | nil => simp
  | cons d ds => simp [followedBy_ne_self continues]

theorem branchedBy_eq_self_iff (continues : continuation ≠ []) :
    c.branchedBy continuation = c ↔ c.isChoice = true ∧ c.children = [] := by
  rw [branchedBy]
  split
  · next choice =>
      have branchless : c.children.map (·.followedBy continuation) = c.children ↔
          c.children = [] := map_followedBy_eq_self_iff continues
      rw [← branchless]
      constructor
      · intro same
        exact ⟨choice, congrArg Condition.children same⟩
      · rintro ⟨_, same⟩
        rw [same]
        cases c
        rfl
  · next single => simp [followedBy_ne_self continues, single]

theorem branchedBy_eq_followedBy_iff (continues : continuation ≠ []) :
    c.branchedBy continuation = c.followedBy continuation ↔ c.isChoice = false := by
  rw [branchedBy]
  split
  · next choice =>
      constructor
      · intro same
        have children := congrArg (fun d => d.children.length) same
        simp only [followedBy, List.length_map, List.length_append] at children
        have := List.length_pos_iff.mpr continues
        omega
      · intro single
        rw [choice] at single
        contradiction
  · next single => simp [single]

end Condition

namespace Reader

variable {r : Reader} {context : Context} {s t : Text} {before continuation : List Condition}

/-- No condition is a choice, or a choice comes first and after it only choices without branches. -/
def FollowsBranches (before : List Condition) : Prop :=
  (∀ c, c ∈ before → c.isChoice = false) ∨
    ∃ first rest, before = first :: rest ∧ first.isChoice = true ∧
      ∀ c, c ∈ rest → c.isChoice = true ∧ c.children = []

theorem continueWith_eq_map_branchedBy_iff (continues : continuation ≠ []) :
    continueWith continuation before = before.map (·.branchedBy continuation) ↔
      FollowsBranches before := by
  cases before with
  | nil => simp [continueWith, FollowsBranches]
  | cons first rest =>
      by_cases leading : first.isChoice = true
      · have branched : first.branchedBy continuation =
            { first with children := first.children.map (·.followedBy continuation) } := by
          rw [Condition.branchedBy, if_pos leading]
        have kept : rest = rest.map (·.branchedBy continuation) ↔
            ∀ c, c ∈ rest → c.isChoice = true ∧ c.children = [] := by
          nth_rewrite 1 [← List.map_id rest]
          rw [List.map_inj_left]
          simp only [id, eq_comm (b := Condition.branchedBy _ _),
            Condition.branchedBy_eq_self_iff continues]
        rw [continueWith, if_pos leading, List.map_cons, branched, List.cons.injEq, kept]
        simp [FollowsBranches, leading]
      · rw [continueWith, if_neg leading, List.map_inj_left]
        simp only [eq_comm (a := Condition.followedBy _ _),
          Condition.branchedBy_eq_followedBy_iff continues]
        simp [FollowsBranches, leading]

theorem shallow_of_read {log later : List Diagnostic}
    (base : r.readInto log context s = (.ok before, later)) (attachable : before ≠ []) :
    context.depth ≤ r.options.depthLimit := by
  apply Classical.byContradiction
  intro deep
  rw [readInto, read_eq] at base
  split at base
  · cases base
    contradiction
  · rw [if_pos (Nat.lt_of_not_le deep)] at base
    cases base

/-- A leading choice takes the exception to its branches and keeps it from all later conditions.
Without one it follows every condition, the choices included. -/
theorem exists_attached (r : Reader) (log middle later : List Diagnostic) (context : Context)
    (s t : Text) (before continuation : List Condition) (undivided : Undivided t)
    (base : r.readInto log context s = (.ok before, middle))
    (exception : r.readInto middle (context.behind (s ++ ['但'])) t = (.ok continuation, later))
    (attachable : before ≠ []) (continues : continuation ≠ []) :
    ∃ attached, r.readInto log context (s ++ '但' :: t) = (.ok attached, later) ∧
      (∀ first rest, before = first :: rest → attached =
        if first.isChoice then first.branchedBy continuation :: rest
        else before.map (·.followedBy continuation)) ∧
      (attached = before.map (·.branchedBy continuation) ↔ FollowsBranches before) := by
  have shallow := shallow_of_read base attachable
  refine ⟨continueWith continuation before, ?_, ?_,
    continueWith_eq_map_branchedBy_iff continues⟩
  · rw [readInto] at base exception ⊢
    rw [read_before_exception shallow undivided, Reading.run_bind, base]
    dsimp only
    rw [Reading.run_bind, exception]
    dsimp only
    rw [if_neg fun detached => attachable detached.1]
    rfl
  · rintro first rest rfl
    rw [continueWith, Condition.branchedBy]
    split <;> rfl

theorem exists_attached_leading_choice :
    ∃ middle later before continuation,
      Undivided ['D'] ∧
      (⟨.empty, {}⟩ : Reader).readInto [] {} "{A又はB}C".toList = (.ok before, middle) ∧
      (⟨.empty, {}⟩ : Reader).readInto middle (Context.behind {} "{A又はB}C但".toList) ['D'] =
        (.ok continuation, later) ∧
      before ≠ [] ∧ continuation ≠ [] ∧
      ∃ attached,
        (⟨.empty, {}⟩ : Reader).readInto [] {} "{A又はB}C但D".toList = (.ok attached, later) ∧
        (∀ first rest, before = first :: rest → attached =
          if first.isChoice then first.branchedBy continuation :: rest
          else before.map (·.followedBy continuation)) ∧
        (attached = before.map (·.branchedBy continuation) ↔ FollowsBranches before) := by
  have undivided : Undivided ['D'] := ⟨by decide, by decide, by decide⟩
  have base : ((⟨.empty, {}⟩ : Reader).readInto [] {} "{A又はB}C".toList).1 =
      .ok [.choice "A又はB".toList 0 false
          [{ category := .unclassified, station := 0, name := ['A'] },
            { category := .unclassified, station := 0, name := ['B'] }],
        { category := .unclassified, station := 0, name := ['C'] }] :=
    Except.toOption_eq_some_iff.mp (by decide +kernel)
  have exception : ((⟨.empty, {}⟩ : Reader).readInto
      ((⟨.empty, {}⟩ : Reader).readInto [] {} "{A又はB}C".toList).2
      (Context.behind {} "{A又はB}C但".toList) ['D']).1 =
      .ok [{ category := .unclassified, station := 0, name := ['D'] }] :=
    Except.toOption_eq_some_iff.mp (by decide +kernel)
  exact ⟨_, _, _, _, undivided, Prod.ext base rfl, Prod.ext exception rfl, nofun, nofun,
    exists_attached ⟨.empty, {}⟩ [] _ _ {} "{A又はB}C".toList ['D'] _ _ undivided
      (Prod.ext base rfl) (Prod.ext exception rfl) nofun nofun⟩

theorem choice_followed_behind_name :
    ∃ before continuation attached,
      ((⟨.empty, {}⟩ : Reader).readInto [] {} "A{B又はC}".toList).1 = .ok before ∧
      ((⟨.empty, {}⟩ : Reader).readInto [] (Context.behind {} "A{B又はC}但".toList) ['D']).1 =
        .ok continuation ∧
      before ≠ [] ∧ continuation ≠ [] ∧
      ((⟨.empty, {}⟩ : Reader).readInto [] {} "A{B又はC}但D".toList).1 = .ok attached ∧
      attached ≠ before.map (·.branchedBy continuation) ∧
      ∃ c d, c ∈ attached ∧ c.isChoice = true ∧ d ∈ continuation ∧ d ∈ c.children := by
  refine ⟨[{ category := .unclassified, station := 0, name := ['A'] },
      .choice "B又はC".toList 0 false
        [{ category := .unclassified, station := 0, name := ['B'] },
          { category := .unclassified, station := 0, name := ['C'] }]],
    [{ category := .unclassified, station := 0, name := ['D'] }],
    [{ category := .unclassified, station := 0, name := ['A'],
        children := [{ category := .unclassified, station := 0, name := ['D'] }] },
      .choice "B又はC".toList 0 false
        [{ category := .unclassified, station := 0, name := ['B'] },
          { category := .unclassified, station := 0, name := ['C'] },
          { category := .unclassified, station := 0, name := ['D'] }]],
    Except.toOption_eq_some_iff.mp (by decide +kernel),
    Except.toOption_eq_some_iff.mp (by decide +kernel), nofun, nofun,
    Except.toOption_eq_some_iff.mp (by decide +kernel), by decide +kernel, ?_⟩
  exact ⟨_, _, List.mem_cons_of_mem _ List.mem_cons_self, rfl, List.mem_cons_self,
    by simp [Condition.choice]⟩

end Reader

end SignalBox
