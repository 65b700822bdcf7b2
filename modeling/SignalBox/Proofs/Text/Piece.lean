import SignalBox.Proofs.Text.SplitOn

namespace SignalBox.Text

namespace Piece

/-- The first piece is a part of the second and starts at the byte that it names. -/
def Within (p q : Piece) : Prop :=
  ∃ before after, q.text = before ++ p.text ++ after ∧ p.offset = q.offset + byteLength before

def stop (p : Piece) : Nat :=
  p.offset + byteLength p.text

def Precedes (p q : Piece) : Prop :=
  p.stop ≤ q.offset

variable {p q o : Piece} {texts : List Text} {separator s t before after : Text}
  {offset gap : Nat}

theorem Within.refl (p : Piece) : p.Within p :=
  ⟨[], [], (List.append_nil _).symm, rfl⟩

theorem Within.trans (inner : o.Within p) (outer : p.Within q) : o.Within q := by
  obtain ⟨left, right, text, start⟩ := inner
  obtain ⟨before, after, whole, place⟩ := outer
  refine ⟨before ++ left, right ++ after, ?_, ?_⟩
  · rw [whole, text]
    simp only [List.append_assoc]
  · rw [start, place, byteLength_append, Nat.add_assoc]

theorem Within.offset_le (within : p.Within q) : q.offset ≤ p.offset := by
  obtain ⟨before, _, _, start⟩ := within
  exact start ▸ Nat.le_add_right _ _

theorem Within.stop_le (within : p.Within q) : p.stop ≤ q.stop := by
  obtain ⟨before, after, text, start⟩ := within
  rw [stop, stop, text, start, byteLength_append, byteLength_append]
  omega

theorem Within.mem {c : Char} (within : p.Within q) (member : c ∈ p.text) : c ∈ q.text := by
  obtain ⟨before, after, text, _⟩ := within
  rw [text]
  exact List.mem_append_left _ (List.mem_append_right _ member)

theorem Within.shift (within : p.Within q) (distance : Nat) :
    Within ⟨distance + p.offset, p.text⟩ ⟨distance + q.offset, q.text⟩ := by
  obtain ⟨before, after, text, start⟩ := within
  refine ⟨before, after, text, ?_⟩
  rw [start, Nat.add_assoc]

theorem within_placed (member : p ∈ placed (byteLength separator) offset texts) :
    p.Within ⟨offset, separator.intercalate texts⟩ := by
  induction texts generalizing offset with
  | nil => contradiction
  | cons t texts ih =>
      cases texts with
      | nil =>
          rw [List.mem_singleton.mp member, List.intercalate_singleton]
          exact .refl _
      | cons u rest =>
          rw [List.intercalate_cons_cons]
          rcases List.mem_cons.mp member with rfl | later
          · exact ⟨[], separator ++ separator.intercalate (u :: rest),
              by rw [List.nil_append, List.append_assoc], rfl⟩
          · apply (ih later).trans
            refine ⟨t ++ separator, [], (List.append_nil _).symm, ?_⟩
            rw [byteLength_append, Nat.add_assoc]

theorem offset_le_of_mem_placed (member : p ∈ placed gap offset texts) : offset ≤ p.offset := by
  induction texts generalizing offset with
  | nil => contradiction
  | cons t texts ih =>
      rcases List.mem_cons.mp member with rfl | later
      · exact Nat.le_refl _
      · have := ih later
        omega

theorem pairwise_placed (gap offset : Nat) (texts : List Text) :
    (placed gap offset texts).Pairwise Precedes := by
  induction texts generalizing offset with
  | nil => exact .nil
  | cons t texts ih =>
      refine List.pairwise_cons.mpr ⟨?_, ih _⟩
      intro q later
      have := offset_le_of_mem_placed later
      exact Nat.le_trans (Nat.le_add_right _ gap) this

end Piece

theorem within_of_mem_pieces {separator s : Text} {p : Piece} (nonempty : separator ≠ [])
    (member : p ∈ pieces separator s) : p.Within ⟨0, s⟩ := by
  have within := Piece.within_placed member
  rwa [intercalate_splitOn nonempty] at within

end SignalBox.Text
