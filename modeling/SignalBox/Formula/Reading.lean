import SignalBox.Diagnostic

namespace SignalBox.Formula

/-! A reading adds warnings to a log and ends with a result or with the error that stopped it. The
log keeps what was added before an error. -/

abbrev Reading := ExceptT Formula.Error (StateM (List Diagnostic))

namespace Reading

def warn (d : Diagnostic) : Reading Unit :=
  modify (· ++ [d])

def gather (read : α → Reading (List β)) : List α → Reading (List β)
  | [] => pure []
  | a :: rest => do
      let first ← read a
      let later ← gather read rest
      pure (first ++ later)

theorem gather_map (f : α → γ) (read : γ → Reading (List β)) (xs : List α) :
    gather read (xs.map f) = gather (fun a => read (f a)) xs := by
  induction xs with
  | nil => rfl
  | cons a xs ih => simp only [List.map_cons, gather, ih]

end Reading

end SignalBox.Formula
