import SignalBox.Text.Basic

namespace SignalBox

/-! What a name in a formula stands for. The first five are kinds of equipment; `alternatives`
stands for a choice between branches and `unclassified` for a name that nothing tells apart. A
device table may declare any other category by its spelling. -/

inductive Category where
  | track
  | timer
  | point
  | signal
  | lever
  | alternatives
  | unclassified
  | declared (spelling : Text)
deriving DecidableEq, Repr

def Category.spelling : Category → Text
  | .track => "track".toList
  | .timer => "timer".toList
  | .point => "point".toList
  | .signal => "signal".toList
  | .lever => "lever".toList
  | .alternatives => "or".toList
  | .unclassified => "null".toList
  | .declared spelling => spelling

def Category.builtIn : List Category :=
  [.track, .timer, .point, .signal, .lever, .alternatives, .unclassified]

/-- A built-in spelling is taken in any case; every other word is a category of its own. -/
def Category.ofWord (word : Text) : Category :=
  (Category.builtIn.find? fun c => c.spelling = word.lower).getD (.declared word)

def Category.ofText? (s : Text) : Option Category :=
  if s.isBlank then none else some (Category.ofWord s.trim)

theorem Category.ofWord_spelling {c : Category} (h : c ∈ Category.builtIn) :
    Category.ofWord c.spelling = c := by
  simp only [Category.builtIn, List.mem_cons, List.not_mem_nil, or_false] at h
  rcases h with rfl | rfl | rfl | rfl | rfl | rfl | rfl <;> decide

end SignalBox
