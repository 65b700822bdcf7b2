import SignalBox.Text.Basic

namespace SignalBox.Text

variable {around behind s : Text} {c : Char}

theorem trimStart_append (blank : around.isBlank = true) (s : Text) :
    trimStart (around ++ s) = trimStart s := by
  induction around with
  | nil => rfl
  | cons d around ih =>
      rw [isBlank_cons, Bool.and_eq_true] at blank
      rw [List.cons_append, trimStart, List.dropWhile_cons_of_pos blank.1]
      exact ih blank.2

theorem trimStart_eq_self (inked : ∀ c, s.head? = some c → isWhite c = false) :
    trimStart s = s := by
  cases s with
  | nil => rfl
  | cons c s =>
      apply List.dropWhile_cons_of_neg
      rw [inked c rfl]
      exact Bool.false_ne_true

theorem isWhite_of_head?_trimStart (starts : (trimStart s).head? = some c) :
    isWhite c = false := by
  induction s with
  | nil => contradiction
  | cons d s ih =>
      rw [trimStart, List.dropWhile_cons] at starts
      split at starts
      · exact ih starts
      · next inked =>
          cases starts
          exact Bool.not_eq_true _ ▸ inked

theorem trimStart_trimStart (s : Text) : trimStart (trimStart s) = trimStart s :=
  trimStart_eq_self fun _ => isWhite_of_head?_trimStart

theorem isBlank_reverse (s : Text) : isBlank s.reverse = isBlank s :=
  List.all_reverse

theorem trimEnd_append (s : Text) (blank : behind.isBlank = true) :
    trimEnd (s ++ behind) = trimEnd s := by
  rw [trimEnd, List.reverse_append, trimStart_append ((isBlank_reverse _).trans blank)]
  rfl

theorem trimEnd_eq_self (inked : ∀ c, s.getLast? = some c → isWhite c = false) :
    trimEnd s = s := by
  rw [trimEnd, trimStart_eq_self, List.reverse_reverse]
  intro c ends
  rw [List.head?_reverse] at ends
  exact inked c ends

theorem trimEnd_trimEnd (s : Text) : trimEnd (trimEnd s) = trimEnd s := by
  rw [trimEnd, trimEnd, List.reverse_reverse, trimStart_trimStart]

theorem trimEnd_prefix (s : Text) : trimEnd s <+: s := by
  have suffix : trimStart s.reverse <:+ s.reverse := List.dropWhile_suffix _
  rw [trimEnd, ← List.reverse_suffix, List.reverse_reverse]
  exact suffix

theorem trim_trim (s : Text) : trim (trim s) = trim s := by
  have starts : trimStart (trim s) = trim s := by
    apply trimStart_eq_self
    intro c starts
    obtain ⟨rest, whole⟩ := trimEnd_prefix (trimStart s)
    apply isWhite_of_head?_trimStart (s := s)
    rw [← whole, List.head?_append]
    change (trim s).head?.or _ = _
    rw [starts]
    rfl
  rw [trim, starts, trim, trimEnd_trimEnd]

theorem trim_around (blankBefore : around.isBlank = true) (blankAfter : behind.isBlank = true)
    (starts : ∀ c, s.head? = some c → isWhite c = false)
    (ends : ∀ c, s.getLast? = some c → isWhite c = false) :
    trim (around ++ s ++ behind) = s := by
  rw [trim, List.append_assoc, trimStart_append blankBefore]
  cases s with
  | nil =>
      rw [List.nil_append, trimStart_eq_nil_iff.mpr blankAfter]
      rfl
  | cons c s =>
      rw [trimStart_eq_self, trimEnd_append _ blankAfter, trimEnd_eq_self ends]
      exact starts

end SignalBox.Text
