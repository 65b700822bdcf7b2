import SignalBox.Category
import SignalBox.Proofs.Text.Trim

namespace SignalBox

open Text

namespace Category

variable {c : Category} {s word : Text}

theorem ofText?_builtIn (builtIn : c ∈ Category.builtIn) : ofText? c.spelling = some c := by
  simp only [Category.builtIn, List.mem_cons, List.not_mem_nil, or_false] at builtIn
  rcases builtIn with rfl | rfl | rfl | rfl | rfl | rfl | rfl <;> decide

theorem mem_builtIn_or_declared (c : Category) :
    c ∈ Category.builtIn ∨ ∃ word, c = .declared word := by
  cases c with
  | declared word => exact .inr ⟨word, rfl⟩
  | _ => exact .inl (by decide)

/-- A text that stands for a category of its own: no blank text around it, and no built-in spelling
in any case. -/
structure Own (word : Text) : Prop where
  nonempty : word ≠ []
  trimmed : word.trim = word
  apart : ∀ c, c ∈ Category.builtIn → word.lower ≠ c.spelling

theorem Own.apart_or (own : Own word) : word.trim.lower ≠ "or".toList := by
  rw [own.trimmed]
  exact own.apart .alternatives (by decide)

theorem ofWord_eq_declared_iff :
    ofWord s = .declared word ↔ s = word ∧ ∀ c, c ∈ Category.builtIn → s.lower ≠ c.spelling := by
  rw [ofWord]
  cases found : Category.builtIn.find? fun c => c.spelling = s.lower with
  | some c =>
      have listed := List.mem_of_find?_eq_some found
      have spelled : c.spelling = s.lower := of_decide_eq_true (List.find?_some found :)
      constructor
      · rintro rfl
        simp [Category.builtIn] at listed
      · rintro ⟨-, apart⟩
        exact absurd spelled.symm (apart c listed)
  | none =>
      have apart : ∀ c, c ∈ Category.builtIn → s.lower ≠ c.spelling := by
        intro c listed same
        exact List.find?_eq_none.mp found c listed (decide_eq_true same.symm)
      change Category.declared s = .declared word ↔ _
      rw [Category.declared.injEq, and_iff_left apart]

theorem ofText?_declared_iff : ofText? word = some (.declared word) ↔ Own word := by
  rw [ofText?]
  split
  · next blank =>
      constructor
      · intro read
        cases read
      · intro own
        exact absurd (own.trimmed ▸ trim_eq_nil_iff.mpr blank) own.nonempty
  · next inked =>
      rw [Option.some_inj, ofWord_eq_declared_iff]
      constructor
      · rintro ⟨trimmed, apart⟩
        refine ⟨?_, trimmed, trimmed ▸ apart⟩
        rintro rfl
        exact inked rfl
      · intro own
        rw [own.trimmed]
        exact ⟨rfl, own.apart⟩

/-- Of all categories only those with a spelling that stands for another one are not read back. -/
theorem ofText?_spelling_iff :
    ofText? c.spelling = some c ↔ ∀ word, c = .declared word → Own word := by
  rcases mem_builtIn_or_declared c with builtIn | ⟨word, rfl⟩
  · refine iff_of_true (ofText?_builtIn builtIn) ?_
    rintro word rfl
    simp [Category.builtIn] at builtIn
  · change ofText? word = _ ↔ _
    rw [ofText?_declared_iff]
    constructor
    · rintro own _ same
      cases same
      exact own
    · intro own
      exact own word rfl

theorem ofText?_spelling (read : ofText? s = some c) : ofText? c.spelling = some c := by
  rw [ofText?_spelling_iff]
  rintro word rfl
  rw [ofText?] at read
  split at read
  · cases read
  · next inked =>
      obtain ⟨rfl, apart⟩ := ofWord_eq_declared_iff.mp (Option.some.inj read)
      exact ⟨mt trim_eq_nil_iff.mp inked, trim_trim s, apart⟩

theorem ofWord_eq_alternatives_iff {word : Text} :
    ofWord word = .alternatives ↔ word.lower = "or".toList := by
  constructor
  · intro choice
    rw [ofWord] at choice
    cases found : builtIn.find? fun c => c.spelling = word.lower with
    | none =>
        rw [found] at choice
        cases choice
    | some c =>
        rw [found] at choice
        cases choice
        exact (of_decide_eq_true (List.find?_some found :)).symm
  · intro spelled
    rw [ofWord, spelled]
    rfl

end Category

end SignalBox
