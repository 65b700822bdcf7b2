import Mathlib.Data.List.Infix
import SignalBox.Proofs.Unclassified

/-! Where the conditions of a reading come from. Each is made of one text on the way, be it a name
or a text with alternatives, and keeps what that text gave it wherever it goes on under another. So
what a cut says of the texts that it makes holds of all conditions. -/

namespace SignalBox

open Text Formula Formula.Reading

namespace Formula

def delimiters : List Text :=
  [Divider.group.mark, Divider.station.mark, Divider.exception.mark, alternativeMark, sequenceMark,
    ['>'], adjacentMark]

theorem Undivided.not_infix_mark {s : Text} (undivided : Undivided s) (d : Divider) :
    ¬ d.mark <:+: s := by
  obtain ⟨c, mark, absent⟩ := d.mark_not_mem undivided
  rw [mark, List.singleton_infix_iff]
  exact absent

theorem not_infix_of_name {s token : Text} {decoration : Decoration}
    (found : cut s = .name decoration token) : ∀ mark, mark ∈ delimiters → ¬ mark <:+: s := by
  have shape := shape_cut s
  rw [found] at shape
  cases shape with
  | name word unlocked alone =>
      simp only [delimiters, List.forall_mem_cons, List.not_mem_nil, false_imp_iff, implies_true,
        and_true]
      refine ⟨word.not_infix_mark _, word.not_infix_mark _, word.not_infix_mark _, word.single,
        ?_, ?_, alone⟩
      · rw [sequenceMark, List.singleton_infix_iff]
        exact word.unspaced
      · rw [List.singleton_infix_iff]
        exact unlocked

theorem inked_of_name {s token : Text} {decoration : Decoration}
    (found : cut s = .name decoration token) : token.isBlank = false := by
  have shape := shape_cut s
  rw [found] at shape
  cases shape with
  | name _ _ _ _ named => exact named

end Formula

namespace Reader

open Condition

/-- The text makes the condition, children aside. -/
inductive Makes (r : Reader) (place : Context) (t : Text) (c : Condition) : Prop
  | name (found : cut t = .name decoration token)
      (own : c.bare = r.namedCondition place decoration token)
  | choice (found : cut t = .alternatives operands)
      (own : c.bare = .choice t place.station place.partialLock [])

def Accounts (r : Reader) (context : Context) (s : Text) (c : Condition) : Prop :=
  ∃ place t, (place, t) ∈ visits context s ∧ r.Makes place t c

variable {r : Reader} {context place : Context} {s t token : Text} {o : Operand} {c d : Condition}
  {operands : List Operand} {conditions : List Condition}
  {outcome : Except Formula.Error (List Condition)} {added : List Diagnostic}

theorem Makes.accounts (made : r.Makes context s c) (inked : s.isBlank = false) :
    r.Accounts context s c :=
  ⟨context, s, mem_visits_iff.mpr ⟨inked, .inl rfl⟩, made⟩

theorem Accounts.of_operand (accounts : r.Accounts (context.enter o) o.text c)
    (inked : s.isBlank = false) (member : o ∈ (cut s).operands) : r.Accounts context s c := by
  obtain ⟨place, t, visited, made⟩ := accounts
  exact ⟨place, t, mem_visits_iff.mpr ⟨inked, .inr ⟨o, member, visited⟩⟩, made⟩

theorem Accounts.of_bare (accounts : r.Accounts context s d) (same : d.bare = c.bare) :
    r.Accounts context s c := by
  obtain ⟨place, t, visited, made⟩ := accounts
  refine ⟨place, t, visited, ?_⟩
  cases made with
  | name found own => exact .name found (same ▸ own)
  | choice found own => exact .choice found (same ▸ own)

theorem accounts_gathered {holds : Operand → Except Formula.Error (List Condition) →
      List Diagnostic → Prop}
    (each : Gathered holds operands (.ok conditions) added) (inked : s.isBlank = false)
    (parts : (cut s).operands = operands)
    (own : ∀ o results findings, holds o (.ok results) findings →
      ∀ c, c ∈ forestPreorder results → r.Accounts (context.enter o) o.text c) :
    ∀ c, c ∈ forestPreorder conditions → r.Accounts context s c := by
  have trees : ∀ top, top ∈ conditions → ∀ c, c ∈ top.preorder → r.Accounts context s c := by
    refine each.forall_results rfl ?_
    intro o member results findings held top listed c below
    have counted := own o results findings held c (mem_forestPreorder_iff.mpr ⟨top, listed, below⟩)
    exact counted.of_operand inked (parts ▸ member)
  intro c member
  obtain ⟨top, listed, below⟩ := mem_forestPreorder_iff.mp member
  exact trees top listed c below

theorem Concludes.accounts (concludes : r.Concludes context s outcome added) :
    ∀ conditions, outcome = .ok conditions →
      ∀ c, c ∈ forestPreorder conditions → r.Accounts context s c := by
  refine concludes.induction (motive := fun context s outcome _ =>
    ∀ conditions, outcome = .ok conditions →
      ∀ c, c ∈ forestPreorder conditions → r.Accounts context s c) ?_
  intro context s outcome added step conditions ok
  cases step.success ok with
  | blank => exact nofun
  | name inked found =>
      exact List.forall_mem_singleton.mpr (Makes.accounts (.name found rfl) inked)
  | sequence inked found each =>
      exact accounts_gathered each inked (congrArg Cut.operands found)
        fun o results findings held => held.2 results rfl
  | alternatives inked found each =>
      rw [forestPreorder_cons, forestPreorder_nil, List.append_nil, preorder_eq]
      refine List.forall_mem_cons.mpr ⟨Makes.accounts (.choice found rfl) inked, ?_⟩
      exact accounts_gathered each inked (congrArg Cut.operands found)
        fun o results findings held => held.2 results rfl
  | exception inked found first second =>
      intro c member
      rcases mem_census_continueWith (List.mem_map_of_mem member) with own | follows
      · obtain ⟨d, listed, same⟩ := List.mem_map.mp own
        have accounts := first.2 _ rfl d listed
        exact (accounts.of_operand inked (by simp [found, Cut.operands])).of_bare same
      · obtain ⟨d, listed, same⟩ := List.mem_map.mp follows
        have accounts := second.2 _ rfl d listed
        exact (accounts.of_operand inked (by simp [found, Cut.operands])).of_bare same

theorem infix_identify (r : Reader) (token : Text) : (r.identify token).2 <:+: token := by
  rcases r.recorded_identify token with whole | ⟨_, stripped⟩
  · rw [whole]
  · exact ⟨[], r.options.timerSuffix, stripped⟩

/-- The suffix of a timer is taken off after the token was seen to be no blank, and nothing looks at
what is left of it. -/
theorem isBlank_identify_iff (inked : token.isBlank = false) :
    (r.identify token).2.isBlank = true ↔
      r.devices.declares token = false ∧ ¬ trackEnding <:+ token ∧
        ∃ blank : Text, blank.isBlank = true ∧ token = blank ++ r.options.timerSuffix := by
  have ending : (dropEnd? trackEnding token).isSome = true ↔ trackEnding <:+ token := by
    simp only [Option.isSome_iff_exists, dropEnd?_eq_some_iff, List.IsSuffix,
      eq_comm (a := token)]
  rw [identify, DeviceTable.declares]
  cases r.devices.find? token with
  | some category => simp [inked]
  | none =>
      dsimp only
      by_cases track : trackEnding <:+ token
      · rw [if_pos (ending.mpr track)]
        simp [inked, track]
      · rw [if_neg (mt ending.mp track)]
        simp only [Option.isSome_none, track, not_false_eq_true, true_and]
        by_cases suffixless : r.options.timerSuffix = []
        · rw [if_pos suffixless, suffixless]
          simp only [inked, Bool.false_eq_true, false_iff]
          rintro ⟨blank, white, same⟩
          rw [same, List.append_nil, white] at inked
          contradiction
        · rw [if_neg suffixless]
          cases stripped : dropEnd? r.options.timerSuffix token with
          | none =>
              simp only [inked, Bool.false_eq_true, false_iff]
              rintro ⟨blank, _, same⟩
              rw [dropEnd?_eq_some_iff.mpr same] at stripped
              contradiction
          | some seconds =>
              rw [dropEnd?_eq_some_iff.mp stripped]
              simp

/-- No delimiter is left in the name of a condition that is no choice, and none that divides a
formula in the name of a choice. -/
theorem readInto_undelimited (r : Reader) (log : List Diagnostic) (station : UInt32)
    (partialLock : Bool) (s : Text) (conditions : List Condition)
    (accepted : (r.readInto log { station, partialLock } s).1 = .ok conditions) :
    ∀ c, c ∈ forestPreorder conditions →
      (c.isChoice = false →
        (∀ mark, mark ∈ delimiters → ¬ mark <:+: c.name) ∧
          ¬ (c.reverse = true ∧ c.summary = true)) ∧
      (c.isChoice = true →
        alternativeMark <:+: c.name ∧ (∀ d : Divider, ¬ d.mark <:+: c.name) ∧ c.name <:+: s ∧
          c.reverse = false ∧ c.summary = false) := by
  obtain ⟨added, _, concludes⟩ := concludes_of_readInto (Prod.ext accepted rfl)
  intro c member
  obtain ⟨place, t, visited, made⟩ := concludes.accounts conditions rfl c member
  cases made with
  | @name decoration token found own =>
      have single : c.isChoice = false :=
        (congrArg isChoice own).trans (r.isChoice_namedCondition place decoration token)
      have name : c.name = (r.identify token).2 := congrArg Condition.name own
      have reverse : c.reverse = decide (decoration = .reverse) := congrArg Condition.reverse own
      have summary : c.summary = decide (decoration = .summary) := congrArg Condition.summary own
      rw [single, name, reverse, summary]
      refine ⟨fun _ => ⟨?_, ?_⟩, nofun⟩
      · intro mark listed inside
        have recorded := (r.infix_identify token).trans (infix_of_name found)
        exact not_infix_of_name found mark listed (inside.trans recorded)
      · rw [decide_eq_true_iff, decide_eq_true_iff]
        rintro ⟨rfl, both⟩
        contradiction
  | choice found own =>
      have choice : c.isChoice = true := congrArg isChoice own
      have name : c.name = t := congrArg Condition.name own
      have reverse : c.reverse = false := congrArg Condition.reverse own
      have summary : c.summary = false := congrArg Condition.summary own
      obtain ⟨undivided, marked, _⟩ := alternatives_parts found
      rw [choice, name, reverse, summary]
      exact ⟨nofun, fun _ =>
        ⟨marked, undivided.not_infix_mark, infix_of_mem_visits visited, rfl, rfl⟩⟩

theorem readInto_undelimited_mixed :
    ∃ conditions,
      (readInto ⟨.empty, {}⟩ [] {} "{(A)((B))又は<C>D}但E秒 F又はG".toList).1 = .ok conditions ∧
      conditions.length = 1 ∧ (forestPreorder conditions).length = 21 ∧
      ∀ c, c ∈ forestPreorder conditions →
        (c.isChoice = false →
          (∀ mark, mark ∈ delimiters → ¬ mark <:+: c.name) ∧
            ¬ (c.reverse = true ∧ c.summary = true)) ∧
        (c.isChoice = true →
          alternativeMark <:+: c.name ∧ (∀ d : Divider, ¬ d.mark <:+: c.name) ∧
            c.name <:+: "{(A)((B))又は<C>D}但E秒 F又はG".toList ∧
            c.reverse = false ∧ c.summary = false) := by
  let name (name : Text) : Condition := { category := .unclassified, station := 0, name }
  let exception : Condition := .choice "E秒 F又はG".toList 0 false
    [{ category := .timer, station := 0, name := ['E'] }, name ['F'], name ['G']]
  let branches : List Condition :=
    [{ name ['A'] with reverse := true }, { name ['B'] with summary := true },
      { name ['C'] with partialLock := true }, name ['D']]
  let whole : Condition := .choice "(A)((B))又は<C>D".toList 0 false
    (branches.map (·.followedBy [exception]))
  have accepted : (readInto ⟨.empty, {}⟩ [] {} "{(A)((B))又は<C>D}但E秒 F又はG".toList).1 =
      .ok [whole] := Except.toOption_eq_some_iff.mp (by decide +kernel)
  exact ⟨_, accepted, rfl, by decide +kernel,
    readInto_undelimited ⟨.empty, {}⟩ [] 0 false _ _ accepted⟩

/-- A name without a declaration is blank if and only if it stands for blank text and the suffix of
a timer behind it. Every other condition that is no choice has a name. -/
theorem readInto_blank_iff (r : Reader) (log : List Diagnostic) (station : UInt32)
    (partialLock : Bool) (s : Text) (conditions : List Condition)
    (accepted : (r.readInto log { station, partialLock } s).1 = .ok conditions) :
    ∀ c, c ∈ forestPreorder conditions → c.isChoice = false →
      ∃ token : Text, token <:+: s ∧ token.isBlank = false ∧ r.Identified token c ∧
        (c.name.isBlank = true ↔
          r.devices.declares token = false ∧ ¬ trackEnding <:+ token ∧
            ∃ blank : Text, blank.isBlank = true ∧ token = blank ++ r.options.timerSuffix) := by
  obtain ⟨added, _, concludes⟩ := concludes_of_readInto (Prod.ext accepted rfl)
  intro c member single
  obtain ⟨place, t, visited, made⟩ := concludes.accounts conditions rfl c member
  cases made with
  | @name decoration token found own =>
      have category : c.category = (r.identify token).1 := congrArg Condition.category own
      have name : c.name = (r.identify token).2 := congrArg Condition.name own
      have inked := inked_of_name found
      have recorded := r.recorded_identify token
      rw [← category, ← name] at recorded
      refine ⟨token, (infix_of_name found).trans (infix_of_mem_visits visited), inked, ?_, ?_⟩
      · exact ⟨Prod.ext category.symm name.symm, recorded⟩
      · rw [name]
        exact isBlank_identify_iff inked
  | choice found own =>
      have choice : c.isChoice = true := congrArg isChoice own
      rw [choice] at single
      contradiction

theorem readInto_blank_iff_suffix :
    ∃ conditions c, (readInto ⟨.empty, {}⟩ [] {} "A但(秒)".toList).1 = .ok conditions ∧
      c ∈ forestPreorder conditions ∧ c.isChoice = false ∧
      ∃ token : Text, token <:+: "A但(秒)".toList ∧ token.isBlank = false ∧
        Identified ⟨.empty, {}⟩ token c ∧
        (c.name.isBlank = true ↔
          DeviceTable.empty.declares token = false ∧ ¬ trackEnding <:+ token ∧
            ∃ blank : Text, blank.isBlank = true ∧ token = blank ++ ['秒']) := by
  let timer : Condition := { category := .timer, station := 0, name := [], reverse := true }
  let name : Condition := { category := .unclassified, station := 0, name := ['A'] }
  have accepted : (readInto ⟨.empty, {}⟩ [] {} "A但(秒)".toList).1 =
      .ok [name.followedBy [timer]] := Except.toOption_eq_some_iff.mp (by decide +kernel)
  have member : timer ∈ forestPreorder [name.followedBy [timer]] := by decide
  exact ⟨_, timer, accepted, member, rfl,
    readInto_blank_iff ⟨.empty, {}⟩ [] 0 false _ _ accepted timer member rfl⟩

theorem nameless_timer :
    ∃ conditions c,
      (readInto ⟨.empty, {}⟩ [] {} "(秒)".toList).1 = .ok conditions ∧
      isBlank (Options.timerSuffix {}) = false ∧ c ∈ forestPreorder conditions ∧
      c.isChoice = false ∧ c.name.isBlank = true := by
  refine ⟨[{ category := .timer, station := 0, name := [], reverse := true }], _,
    Except.toOption_eq_some_iff.mp (by decide +kernel), by decide, List.mem_cons_self,
    by decide, by decide⟩

end Reader

end SignalBox
