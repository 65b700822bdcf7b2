import SignalBox.Formula.Size
import SignalBox.Proofs.Formula.Shape
import SignalBox.Proofs.Text.Piece

namespace SignalBox.Formula

open Text

def Operand.piece (o : Operand) : Piece :=
  ⟨o.offset, o.text⟩

structure LaidOut (s : Text) (operands : List Operand) : Prop where
  within : ∀ o, o ∈ operands → o.piece.Within ⟨0, s⟩
  ordered : operands.Pairwise fun o p => o.piece.Precedes p.piece

theorem laidOut_nil (s : Text) : LaidOut s [] :=
  ⟨nofun, .nil⟩

theorem laidOut_three {a b c g h : Text} {o p q : Operand}
    (first : o.piece = ⟨0, a⟩) (second : p.piece = ⟨byteLength (a ++ g), b⟩)
    (third : q.piece = ⟨byteLength (a ++ g ++ b ++ h), c⟩) :
    LaidOut (a ++ g ++ b ++ h ++ c) [o, p, q] where
  within := by
    intro r member
    simp only [List.mem_cons, List.not_mem_nil, or_false] at member
    rcases member with rfl | rfl | rfl
    · rw [first]
      exact ⟨[], g ++ b ++ h ++ c, by simp, rfl⟩
    · rw [second]
      exact ⟨a ++ g, h ++ c, by simp, (Nat.zero_add _).symm⟩
    · rw [third]
      exact ⟨a ++ g ++ b ++ h, [], by simp, (Nat.zero_add _).symm⟩
  ordered := by
    simp only [List.pairwise_cons, List.mem_cons, List.not_mem_nil, or_false, forall_eq_or_imp,
      forall_eq, first, second, third, Piece.Precedes, Piece.stop, byteLength_append]
    refine ⟨⟨?_, ?_⟩, ?_, fun _ => False.elim, .nil⟩ <;> omega

theorem laidOut_ofEnclosure {s : Text} {x : Enclosure} (outer inner : Place) (text : s = x.text) :
    LaidOut s (Operand.ofEnclosure outer inner x) := by
  rw [text]
  apply laidOut_three rfl
  · simp [Operand.piece, Enclosure.betweenAt, Enclosure.openAt]
  · simp [Operand.piece, Enclosure.afterAt, Enclosure.closeAt, Enclosure.betweenAt,
      Enclosure.openAt, Nat.add_assoc]

theorem laidOut_ofDecorated (x : Enclosure) : LaidOut x.text (Operand.ofDecorated x) := by
  have text : x.text =
      x.before ++ [] ++ (x.opening ++ x.between ++ x.closing) ++ [] ++ x.after := by
    simp [Enclosure.text]
  rw [text]
  apply laidOut_three rfl
  · simp [Operand.piece, Enclosure.openAt]
  · simp [Operand.piece, Enclosure.afterAt, Enclosure.closeAt, Enclosure.betweenAt,
      Enclosure.openAt, Nat.add_assoc]

theorem laidOut_pieces {separator : Text} (nonempty : separator ≠ []) (s : Text) (place : Place) :
    LaidOut s ((pieces separator s).map (Operand.ofPiece place)) where
  within := by
    intro o member
    obtain ⟨p, found, rfl⟩ := List.mem_map.mp member
    exact within_of_mem_pieces nonempty found
  ordered := List.pairwise_map.mpr (Piece.pairwise_placed _ _ _)

theorem laidOut_exceptionAt {s : Text} {x : Split} (text : s = x.text) :
    LaidOut s (Cut.exceptionAt x).operands where
  within := by
    intro o member
    simp only [Cut.exceptionAt, Cut.operands, List.mem_cons, List.not_mem_nil, or_false] at member
    rw [text]
    rcases member with rfl | rfl
    · exact ⟨[], x.token ++ x.after, by simp [Split.text, Operand.piece], rfl⟩
    · refine ⟨x.before ++ x.token, [], by simp [Split.text, Operand.piece], ?_⟩
      simp [Operand.piece, Split.afterAt, Split.tokenAt]
  ordered := by
    simp [Cut.exceptionAt, Cut.operands, Operand.piece, Piece.Precedes, Piece.stop,
      Split.afterAt, Split.tokenAt]

theorem Shape.laidOut {s : Text} {c : Cut} (shape : Shape s c) : LaidOut s c.operands := by
  cases shape with
  | group => exact laidOut_ofEnclosure _ _ (by simp [Enclosure.text])
  | station positive ends opened =>
      exact laidOut_ofEnclosure _ _ (by simp [opened.text, Enclosure.text, copies_singleton])
  | exception => exact laidOut_exceptionAt (by simp [Split.text, exceptionMark])
  | alternatives => exact laidOut_pieces (by simp [alternativeMark]) s .inside
  | words => exact laidOut_pieces (by simp [sequenceMark]) s .beside
  | lock => exact laidOut_ofEnclosure _ _ (by simp [Enclosure.text])
  | @decorated _ x _ _ _ enclosure =>
      rw [(enclosedByRun?_parts enclosure).2.2]
      exact laidOut_ofDecorated x
  | _ => exact laidOut_nil _

theorem laidOut_cut (s : Text) : LaidOut s (cut s).operands :=
  (shape_cut s).laidOut

section Parts

variable {s : Text} {o base continuation : Operand}

theorem Undivided.operand (undivided : Undivided s) (member : o ∈ (cut s).operands) :
    Undivided o.text := by
  have within := (laidOut_cut s).within o member
  exact ⟨fun found => undivided.group (within.mem found),
    fun found => undivided.station (within.mem found),
    fun found => undivided.exception (within.mem found)⟩

theorem exception_parts (found : cut s = .exception base continuation) :
    '但' ∈ s ∧ s = base.text ++ exceptionMark ++ continuation.text ∧
      Undivided continuation.text := by
  have shape := shape_cut s
  rw [found] at shape
  cases shape with
  | exception undivided => exact ⟨by simp, by simp [exceptionMark], undivided⟩

theorem infix_of_operand (member : o ∈ (cut s).operands) : o.text <:+: s := by
  obtain ⟨before, after, text, _⟩ := (laidOut_cut s).within o member
  exact ⟨before, after, text.symm⟩

theorem alternatives_parts {operands : List Operand} (found : cut s = .alternatives operands) :
    Undivided s ∧ alternativeMark <:+: s ∧
      ∀ o, o ∈ operands → ¬ alternativeMark <:+: o.text := by
  have shape := shape_cut s
  rw [found] at shape
  cases shape with
  | alternatives undivided occurs =>
      refine ⟨undivided, occurs, ?_⟩
      intro o member
      obtain ⟨p, placed, rfl⟩ := List.mem_map.mp member
      exact not_infix_of_mem_splitOn (by simp [alternativeMark])
        (Piece.text_mem_of_mem_placed placed)

end Parts

end SignalBox.Formula
