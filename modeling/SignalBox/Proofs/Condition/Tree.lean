import Mathlib.Data.List.Chain
import SignalBox.Condition

namespace SignalBox.Condition

theorem mem_forestPreorder_iff {d : Condition} {cs : List Condition} :
    d ∈ forestPreorder cs ↔ ∃ c, c ∈ cs ∧ d ∈ c.preorder := by
  induction cs with
  | nil => simp
  | cons c cs ih =>
      rw [forestPreorder_cons, List.mem_append, ih]
      simp

theorem mem_preorder_self (c : Condition) : c ∈ c.preorder := by
  rw [preorder_eq]
  exact List.mem_cons_self

mutual

def height : Condition → Nat
  | ⟨_, _, _, _, _, _, children⟩ => forestHeight children + 1

def forestHeight : List Condition → Nat
  | [] => 0
  | c :: rest => max c.height (forestHeight rest)

end

variable {c : Condition} {cs continuation : List Condition} {n : Nat}

theorem height_eq (c : Condition) : c.height = forestHeight c.children + 1 := by
  cases c
  rfl

theorem forestHeight_le_iff : forestHeight cs ≤ n ↔ ∀ c, c ∈ cs → c.height ≤ n := by
  induction cs with
  | nil => simp [forestHeight]
  | cons c cs ih => rw [forestHeight, Nat.max_le, ih, List.forall_mem_cons]

theorem forestHeight_append (xs ys : List Condition) :
    forestHeight (xs ++ ys) = max (forestHeight xs) (forestHeight ys) := by
  induction xs with
  | nil => simp [forestHeight]
  | cons c xs ih => simp [forestHeight, ih, Nat.max_assoc]

theorem height_followedBy (c : Condition) (continuation : List Condition) :
    (c.followedBy continuation).height = max c.height (forestHeight continuation + 1) := by
  rw [height_eq, height_eq, followedBy, forestHeight_append]
  omega

theorem length_le_height (path : List Condition)
    (descends : (c :: path).IsChain fun parent child => child ∈ parent.children) :
    (c :: path).length ≤ c.height := by
  induction path generalizing c with
  | nil =>
      rw [height_eq]
      exact Nat.le_add_left _ _
  | cons d path ih =>
      obtain ⟨child, below⟩ := List.isChain_cons_cons.mp descends
      have lower := forestHeight_le_iff.mp (Nat.le_refl (forestHeight c.children)) d child
      rw [height_eq, List.length_cons]
      exact Nat.succ_le_succ (Nat.le_trans (ih below) lower)

theorem exists_mem_of_forestHeight (high : forestHeight cs = n + 1) :
    ∃ c, c ∈ cs ∧ c.height = n + 1 := by
  induction cs with
  | nil => contradiction
  | cons c cs ih =>
      rw [forestHeight] at high
      rcases Nat.le_total (forestHeight cs) c.height with le | le
      · exact ⟨c, List.mem_cons_self, by omega⟩
      · obtain ⟨d, member, same⟩ := ih (by omega)
        exact ⟨d, List.mem_cons_of_mem _ member, same⟩

theorem exists_path (high : c.height = n + 1) :
    ∃ path : List Condition,
      (c :: path).IsChain (fun parent child => child ∈ parent.children) ∧
        (c :: path).length = n + 1 := by
  induction n generalizing c with
  | zero => exact ⟨[], .singleton c, rfl⟩
  | succ n ih =>
      rw [height_eq, Nat.succ_inj] at high
      obtain ⟨d, child, lower⟩ := exists_mem_of_forestHeight high
      obtain ⟨path, descends, long⟩ := ih lower
      exact ⟨d :: path, List.isChain_cons_cons.mpr ⟨child, descends⟩, congrArg Nat.succ long⟩

theorem height_le_iff :
    c.height ≤ n ↔ ∀ path : List Condition,
      (c :: path).IsChain (fun parent child => child ∈ parent.children) →
        (c :: path).length ≤ n := by
  constructor
  · intro low path descends
    exact Nat.le_trans (length_le_height path descends) low
  · intro short
    obtain ⟨path, descends, long⟩ := exists_path (height_eq c)
    have := short path descends
    rw [height_eq]
    omega

end SignalBox.Condition
