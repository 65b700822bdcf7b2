import SignalBox.Text.Basic

namespace SignalBox.Yaml

def isBlank (c : Char) : Bool :=
  c = ' ' || c = '\t'

def isBreak (c : Char) : Bool :=
  c = '\n' || c = '\u2028' || c = '\u2029'

def isWhite (c : Char) : Bool :=
  isBlank c || isBreak c

/-- One line feed for each line end. The two separators stay, because scalars keep them. -/
def unifyBreaks : Text → Text
  | [] => []
  | '\r' :: '\n' :: rest => '\n' :: unifyBreaks rest
  | c :: rest => (if c = '\r' || c = '\u0085' then '\n' else c) :: unifyBreaks rest

def skipBlanks (s : Text) : Text :=
  s.dropWhile isBlank

def skipLine (s : Text) : Text :=
  s.dropWhile fun c => !isBreak c

def atGap : Text → Bool
  | [] => true
  | c :: _ => isWhite c

def atLineEnd : Text → Bool
  | [] => true
  | c :: _ => isBreak c

def lineEnd? (s : Text) : Option Text :=
  let after :=
    match skipBlanks s with
    | '#' :: rest => skipLine rest
    | rest => rest
  if atLineEnd after then some after else none

/-- At the start of a line, three hyphens begin a document and three dots end it. -/
def atMarker : Text → Bool
  | '-' :: '-' :: '-' :: rest => atGap rest
  | '.' :: '.' :: '.' :: rest => atGap rest
  | _ => false

def isWordChar (c : Char) : Bool :=
  c.isAlphanum || c = '_' || c = '-'

/-! Where a character is not permitted, the text cannot be read. This is looked at block by block,
so what stands in earlier blocks is read all the same. -/

def isPermitted (c : Char) : Bool :=
  c = '\t' || c = '\n' || c = '\r' || (' ' ≤ c && c ≤ '~') || c = '\u0085' ||
    ('\u00a0' ≤ c && c.val ≠ 0xFFFE && c.val ≠ 0xFFFF)

def blockSize : Nat := 16384

/-- The blocks before the first one with a character that is not permitted, and whether they are
all. `block` has what the current block holds so far, last first. -/
def legible (room : Nat) (block : Text) : Text → Text × Bool
  | [] => (block.reverse, true)
  | c :: rest =>
      if c.utf8Size ≤ room then
        if isPermitted c then legible (room - c.utf8Size) (c :: block) rest else ([], false)
      else
        let (later, whole) :=
          if isPermitted c then legible (blockSize - c.utf8Size) [c] rest else ([], false)
        (block.reverse ++ later, whole)

end SignalBox.Yaml
