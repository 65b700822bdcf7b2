import SignalBox.Category

namespace SignalBox

/-! A condition names one piece of equipment, or a choice between branches, and holds in `children`
the branches of the choice and the conditions that except it. -/

structure Condition where
  category : Category
  /-- How many station scopes deep; 0 is the own station. -/
  station : UInt32
  name : Text
  /-- Written `(name)`: required in the reverse position. -/
  reverse : Bool := false
  /-- Written `((name))`: controls a whole group. -/
  summary : Bool := false
  /-- Written `<name>`: holds under partial locking. -/
  partialLock : Bool := false
  children : List Condition := []
deriving Repr

namespace Condition

def choice (name : Text) (station : UInt32) (partialLock : Bool)
    (branches : List Condition) : Condition where
  category := .alternatives
  station := station
  name := name
  partialLock := partialLock
  children := branches

def isChoice (c : Condition) : Bool :=
  c.category = .alternatives

def isChildless (c : Condition) : Bool :=
  c.children.isEmpty

def followedBy (c : Condition) (continuation : List Condition) : Condition :=
  { c with children := c.children ++ continuation }

mutual

def preorder : Condition → List Condition
  | ⟨category, station, name, reverse, summary, partialLock, children⟩ =>
      ⟨category, station, name, reverse, summary, partialLock, children⟩ ::
        forestPreorder children

def forestPreorder : List Condition → List Condition
  | [] => []
  | c :: rest => c.preorder ++ forestPreorder rest

end

theorem preorder_eq (c : Condition) :
    c.preorder = c :: forestPreorder c.children := by
  cases c
  rfl

@[simp] theorem forestPreorder_nil : forestPreorder [] = [] := rfl

@[simp] theorem forestPreorder_cons (c : Condition) (rest : List Condition) :
    forestPreorder (c :: rest) = c.preorder ++ forestPreorder rest := rfl

@[simp] theorem forestPreorder_append (xs ys : List Condition) :
    forestPreorder (xs ++ ys) = forestPreorder xs ++ forestPreorder ys := by
  induction xs with
  | nil => rfl
  | cons c xs ih => simp [ih]

def equipment (c : Condition) : List Condition :=
  c.preorder.filter fun d => !d.isChoice

mutual

def decEq : (c d : Condition) → Decidable (c = d)
  | ⟨category₁, station₁, name₁, reverse₁, summary₁, partialLock₁, children₁⟩,
    ⟨category₂, station₂, name₂, reverse₂, summary₂, partialLock₂, children₂⟩ =>
      match decEqForest children₁ children₂ with
      | isFalse differ => isFalse fun same => differ (congrArg children same)
      | isTrue same =>
          if fields : category₁ = category₂ ∧ station₁ = station₂ ∧ name₁ = name₂ ∧
              reverse₁ = reverse₂ ∧ summary₁ = summary₂ ∧ partialLock₁ = partialLock₂ then
            isTrue (by
              obtain ⟨rfl, rfl, rfl, rfl, rfl, rfl⟩ := fields
              rw [same])
          else
            isFalse fun same => fields (by
              cases same
              exact ⟨rfl, rfl, rfl, rfl, rfl, rfl⟩)

def decEqForest : (xs ys : List Condition) → Decidable (xs = ys)
  | [], [] => isTrue rfl
  | [], _ :: _ => isFalse nofun
  | _ :: _, [] => isFalse nofun
  | c :: xs, d :: ys =>
      match decEq c d, decEqForest xs ys with
      | isTrue head, isTrue tail => isTrue (by rw [head, tail])
      | isFalse differ, _ => isFalse fun same => differ (List.cons.inj same).1
      | _, isFalse differ => isFalse fun same => differ (List.cons.inj same).2

end

instance : DecidableEq Condition := decEq

end Condition

end SignalBox
