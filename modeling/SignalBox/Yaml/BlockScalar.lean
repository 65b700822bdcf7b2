import SignalBox.Yaml.Character

namespace SignalBox.Yaml

inductive Chomping where
  | strip
  | clip
  | keep
deriving DecidableEq, Repr

namespace BlockScalar

def chomping? : Text → Option (Chomping × Text)
  | '+' :: rest => some (.keep, rest)
  | '-' :: rest => some (.strip, rest)
  | _ => none

/-- An indentation indicator, 0 where there is none; a written 0 is refused. -/
def indentation? : Text → Option (Nat × Text)
  | [] => some (0, [])
  | c :: rest =>
      if c = '0' then none
      else if c.isDigit then some (c.toNat - '0'.toNat, rest)
      else some (0, c :: rest)

def header? (s : Text) : Option (Chomping × Nat × Text) :=
  match chomping? s with
  | some (chomping, rest) => (indentation? rest).map fun (indent, rest) => (chomping, indent, rest)
  | none =>
      (indentation? s).map fun (indent, rest) =>
        match chomping? rest with
        | some (chomping, after) =>
            if indent = 0 then (.clip, indent, rest) else (chomping, indent, after)
        | none => (.clip, indent, rest)

/-- Lines with nothing on them, up to the indentation if that is known: their line ends, the
deepest column that is reached and what follows. A tab must not stand for indentation. -/
def emptyLines? (indent? : Option Nat) (deepest : Nat) (s : Text) : Option (Text × Nat × Text) :=
  let spaces := (s.takeWhile (· = ' ')).length
  let column := (indent?.map (min spaces)).getD spaces
  let inside := (indent?.map (decide <| column < ·)).getD true
  match h : s.drop column with
  | [] => some ([], max deepest column, s)
  | c :: rest =>
      if inside && c = '\t' then none
      else if isBreak c then
        have : rest.length < s.length := by
          have := congrArg List.length h
          simp only [List.length_drop, List.length_cons] at this
          omega
        (emptyLines? indent? (max deepest column) rest).map fun (breaks, deepest, after) =>
          (c :: breaks, deepest, after)
      else some ([], max deepest column, s)
termination_by s.length

theorem length_after_of_emptyLines? {indent? : Option Nat} {deepest column : Nat}
    {s breaks after : Text} (h : emptyLines? indent? deepest s = some (breaks, column, after)) :
    after.length ≤ s.length := by
  fun_induction emptyLines? indent? deepest s generalizing breaks column after with
  | case1 =>
      cases h
      exact Nat.le_refl _
  | case2 => contradiction
  | case3 =>
      rename_i shorter ih
      obtain ⟨⟨b, n, a⟩, found, same⟩ := Option.map_eq_some_iff.mp h
      cases same
      exact Nat.le_of_lt (Nat.lt_of_le_of_lt (ih found) shorter)
  | case4 =>
      cases h
      exact Nat.le_refl _

structure Line where
  text : Text
  ending : Text
  more : Text
deriving DecidableEq, Repr

def lines? (indent : Nat) (s : Text) : Option (List Line × Text) :=
  let spaces := (s.takeWhile (· = ' ')).length
  match h : s.drop indent with
  | [] => some ([], s)
  | c :: rest =>
      if spaces < indent then some ([], s)
      else
        let text := (c :: rest).takeWhile fun c => !isBreak c
        match ends : skipLine (c :: rest) with
        | [] => some ([⟨text, [], []⟩], [])
        | ending :: below =>
            match found : emptyLines? (some indent) 0 below with
            | none => none
            | some (more, _, after) =>
                have : after.length < s.length := by
                  have kept := length_after_of_emptyLines? found
                  have left : (skipLine (c :: rest)).length ≤ (c :: rest).length :=
                    (List.dropWhile_suffix _).length_le
                  have all := congrArg List.length h
                  rw [ends] at left
                  simp only [List.length_drop, List.length_cons] at all left
                  omega
                (lines? indent after).map fun (later, rest) =>
                  (⟨text, [ending], more⟩ :: later, rest)
termination_by s.length

def startsBlank (line : Line) : Bool :=
  (line.text.head?.map isBlank).getD false

/-- What stands for the line ends between two lines. Folding leaves lines alone that start with a
blank. -/
def between (folded : Bool) (line next : Line) : Text :=
  if folded && line.ending = ['\n'] && !startsBlank line && !startsBlank next then
    if line.more = [] then [' '] else line.more
  else line.ending ++ line.more

def tail : Chomping → Line → Text
  | .strip, _ => []
  | .clip, line => line.ending
  | .keep, line => line.ending ++ line.more

def join (folded : Bool) (chomping : Chomping) (line : Line) : List Line → Text
  | [] => tail chomping line
  | next :: rest => between folded line next ++ next.text ++ join folded chomping next rest

end BlockScalar

/-- From behind the bar or the angle. `parent` is the least column inside the collection around
the scalar. -/
def blockScalar? (folded : Bool) (parent : Nat) (s : Text) : Option (Text × Text) := do
  let (chomping, increment, after) ← BlockScalar.header? s
  let below := (← lineEnd? after).drop 1
  let known? := if increment = 0 then none else some (parent - 1 + increment)
  let (more, deepest, rest) ← BlockScalar.emptyLines? known? 0 below
  let indent := known?.getD (max deepest (max parent 1))
  let (lines, rest) ← BlockScalar.lines? indent rest
  some (BlockScalar.join folded chomping ⟨[], [], more⟩ lines, rest)

end SignalBox.Yaml
