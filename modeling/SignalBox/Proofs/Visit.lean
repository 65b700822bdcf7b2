import SignalBox.Proofs.Formula.Operand
import SignalBox.Proofs.Reading

namespace SignalBox.Reader

open Text Formula Formula.Reading

def visits (context : Context) (s : Text) : List (Context × Text) :=
  if s.isBlank then []
  else
    (context, s) ::
      (cut s).operands.attach.flatMap fun ⟨o, _⟩ => visits (context.enter o) o.text
termination_by byteLength s
decreasing_by exact byteLength_lt_of_mem_cut ‹_›

theorem visits_eq (context : Context) (s : Text) :
    visits context s =
      if s.isBlank then []
      else
        (context, s) ::
          (cut s).operands.flatMap fun o => visits (context.enter o) o.text := by
  rw [visits]
  split
  · rfl
  · rw [List.flatMap_subtype (g := fun o : Operand => visits (context.enter o) o.text)
      (fun _ _ => rfl), List.unattach_attach]

section Visits

variable {r : Reader} {context place : Context} {s t : Text} {c : Char}

theorem mem_visits_iff :
    (place, t) ∈ visits context s ↔
      s.isBlank = false ∧ ((place, t) = (context, s) ∨
        ∃ o, o ∈ (cut s).operands ∧ (place, t) ∈ visits (context.enter o) o.text) := by
  rw [visits_eq]
  split
  · next blank => simp [blank]
  · next inked => simp [inked]

theorem infix_of_mem_visits (visited : (place, t) ∈ visits context s) : t <:+: s := by
  generalize size : byteLength s = n
  induction n using Nat.strongRecOn generalizing context s with
  | ind n ih =>
      obtain ⟨_, here | ⟨o, operand, inside⟩⟩ := mem_visits_iff.mp visited
      · obtain ⟨_, rfl⟩ := Prod.mk.inj here
        exact List.infix_rfl
      · exact (ih _ (size ▸ byteLength_lt_of_mem_cut operand) inside rfl).trans
          (infix_of_operand operand)

theorem mem_of_mem_visits (visited : (place, t) ∈ visits context s) (member : c ∈ t) : c ∈ s :=
  (infix_of_mem_visits visited).subset member

end Visits

end SignalBox.Reader
