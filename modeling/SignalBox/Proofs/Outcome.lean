import Mathlib.Data.List.Forall2

namespace Except

section

variable {ε α β γ : Type} {outcome : Except ε α} {a : α} {e : ε}

theorem bind_eq_ok {f : α → Except ε β} {b : β} (ok : outcome >>= f = .ok b) :
    ∃ a, outcome = .ok a ∧ f a = .ok b := by
  cases outcome with
  | error e => contradiction
  | ok a => exact ⟨a, rfl, ok⟩

theorem toOption_eq_some_iff : outcome.toOption = some a ↔ outcome = .ok a := by
  cases outcome with
  | error e => exact iff_of_false nofun nofun
  | ok b => rw [Except.toOption, Option.some_inj, Except.ok.injEq]

theorem mapError_eq_ok_iff {f : ε → γ} : outcome.mapError f = .ok a ↔ outcome = .ok a := by
  cases outcome with
  | error e => exact iff_of_false nofun nofun
  | ok b => exact ⟨fun same => congrArg Except.ok (Except.ok.inj same), congrArg _⟩

theorem eq_error_of_match
    (h : (match outcome with
      | .error e => some e
      | .ok _ => none) = some e) : outcome = .error e := by
  cases outcome with
  | error _ => exact congrArg Except.error (Option.some.inj h)
  | ok _ => contradiction

end

section

variable {ε α β σ : Type} {attempt : α → Except ε β}

/-- What is built up step by step can be built up at the end. -/
theorem foldlM_map_eq (attempt : α → Except ε β) (extend : σ → β → σ) (entries : List α)
    (state : σ) :
    entries.foldlM (fun state e => (attempt e).map (extend state)) state =
      (entries.mapM attempt).map fun results => results.foldl extend state := by
  induction entries generalizing state with
  | nil => rfl
  | cons e entries ih =>
      rw [List.foldlM_cons, List.mapM_cons]
      cases attempt e with
      | error fault => rfl
      | ok b =>
          change entries.foldlM _ (extend state b) = _
          rw [ih]
          change _ = (Except.map _ ((entries.mapM attempt).map (b :: ·)))
          cases entries.mapM attempt <;> rfl

theorem mapM_eq_error_iff {fault? : α → Option ε} {fault : ε} {entries : List α}
    (faults : ∀ e fault, attempt e = .error fault ↔ fault? e = some fault) :
    entries.mapM attempt = .error fault ↔ entries.findSome? fault? = some fault := by
  induction entries with
  | nil => simp [pure, Except.pure]
  | cons e entries ih =>
      rw [List.mapM_cons, List.findSome?_cons]
      cases attempted : attempt e with
      | error first =>
          rw [(faults e first).mp attempted]
          exact ⟨fun same => congrArg some (Except.error.inj same),
            fun same => congrArg Except.error (Option.some.inj same)⟩
      | ok b =>
          cases found : fault? e with
          | some first => cases attempted.symm.trans ((faults e first).mpr found)
          | none =>
              rw [← ih]
              change ((entries.mapM attempt).map (b :: ·)) = _ ↔ _
              cases entries.mapM attempt <;> simp [Except.map]

theorem forall₂_of_mapM {entries : List α} {results : List β}
    (mapped : entries.mapM attempt = .ok results) :
    List.Forall₂ (fun e b => attempt e = .ok b) entries results := by
  induction entries generalizing results with
  | nil =>
      cases mapped
      exact .nil
  | cons e entries ih =>
      rw [List.mapM_cons] at mapped
      cases attempted : attempt e with
      | error fault =>
          rw [attempted] at mapped
          cases mapped
      | ok b =>
          rw [attempted] at mapped
          cases later : entries.mapM attempt with
          | error fault =>
              rw [later] at mapped
              cases mapped
          | ok more =>
              rw [later] at mapped
              cases mapped
              exact .cons attempted (ih later)

end

end Except
