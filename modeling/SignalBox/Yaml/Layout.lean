import SignalBox.Yaml.BlockScalar
import SignalBox.Yaml.Scalar
import SignalBox.Yaml.Token

namespace SignalBox.Yaml

/-! The row of tokens in a text. Block collections begin and end by their columns, and a key that no
mark announces is known only by the colon behind it. -/

structure Mark where
  line : Nat := 0
  column : Nat := 0
  offset : Nat := 0
deriving DecidableEq, Repr

def Mark.next (mark : Mark) (c : Char) : Mark :=
  if isBreak c then ⟨mark.line + 1, 0, mark.offset + c.utf8Size⟩
  else ⟨mark.line, mark.column + 1, mark.offset + c.utf8Size⟩

def Mark.after (mark : Mark) (s : Text) : Mark :=
  s.foldl Mark.next mark

/-! A token that turns out to be a key if a colon follows on its line, within 1024 bytes. -/

structure Candidate where
  place : Nat
  mark : Mark
  /-- It starts where the block map around it has its keys, so it must be one. -/
  required : Bool
deriving DecidableEq, Repr

def Candidate.isOver (mark : Mark) (candidate : Candidate) : Bool :=
  candidate.mark.line < mark.line || candidate.mark.offset + 1024 < mark.offset

structure Layout where
  rest : Text
  mark : Mark := {}
  columns : List Nat := []
  candidate? : Option Candidate := none
  outer : List (Option Candidate) := []
  keyAllowed : Bool := true
  tokens : List Token := []
  count : Nat := 0

namespace Layout

def inFlow (l : Layout) : Bool :=
  !l.outer.isEmpty

def advance (l : Layout) (n : Nat) : Layout :=
  { l with rest := l.rest.drop n, mark := l.mark.after (l.rest.take n) }

def moveTo (l : Layout) (rest : Text) : Layout :=
  l.advance (l.rest.length - rest.length)

def emit (l : Layout) (token : Token) : Layout :=
  { l with tokens := token :: l.tokens, count := l.count + 1 }

/-- Puts a token before those from a place on. -/
def emitAt (l : Layout) (place : Nat) (token : Token) : Layout :=
  let later := l.count - place
  { l with
    tokens := l.tokens.take later ++ token :: l.tokens.drop later
    count := l.count + 1 }

def emitMark (l : Layout) (token : Token) : Layout :=
  (l.advance 1).emit token

/-- Ends the block collections whose column is not to stay. -/
def close (l : Layout) (stays : Nat → Bool) : Layout :=
  if l.inFlow then l
  else
    let closed := l.columns.takeWhile fun column => !stays column
    { l with
      columns := l.columns.drop closed.length
      tokens := List.replicate closed.length .blockEnd ++ l.tokens
      count := l.count + closed.length }

def openAt (l : Layout) (column place : Nat) (token : Token) : Layout :=
  if l.inFlow ∨ l.columns.head?.any (column ≤ ·) then l
  else { l.emitAt place token with columns := column :: l.columns }

def forget? (l : Layout) : Option Layout :=
  if l.candidate?.any Candidate.required then none else some { l with candidate? := none }

def consider? (l : Layout) : Option Layout :=
  if l.keyAllowed then
    l.forget?.map fun l =>
      let required := !l.inFlow && l.columns.head? = some l.mark.column
      { l with candidate? := some ⟨l.count, l.mark, required⟩ }
  else some l

def forgetOver? (l : Layout) : Option Layout :=
  let isLost (c? : Option Candidate) := c?.any fun c => c.required && c.isOver l.mark
  let kept (c? : Option Candidate) := c?.filter fun c => !c.isOver l.mark
  if (l.candidate? :: l.outer).any isLost then none
  else some { l with candidate? := kept l.candidate?, outer := l.outer.map kept }

def settled (l : Layout) : List Token :=
  let places := (l.candidate? :: l.outer).filterMap fun c? => c?.map Candidate.place
  l.tokens.reverse.take (places.foldl min l.count)

/-- Passes over blanks, line ends and comments, and tells whether a key may start after them. Where
it may, a tab is no blank. A byte order mark may start a line. -/
def afterSpace (inFlow keyAllowed : Bool) (mark : Mark) : Text → Text × Mark × Bool
  | [] => ([], mark, keyAllowed)
  | c :: rest =>
      if (c = '\ufeff' && mark.column = 0) || c = ' ' ||
          (c = '\t' && (inFlow || !keyAllowed)) then
        afterSpace inFlow keyAllowed (mark.next c) rest
      else if c = '#' then afterComment (mark.next c) rest
      else if isBreak c then afterSpace inFlow (keyAllowed || !inFlow) (mark.next c) rest
      else (c :: rest, mark, keyAllowed)
where
  afterComment (mark : Mark) : Text → Text × Mark × Bool
    | [] => ([], mark, keyAllowed)
    | c :: rest =>
        if isBreak c then afterSpace inFlow (keyAllowed || !inFlow) (mark.next c) rest
        else afterComment (mark.next c) rest

def approach? (l : Layout) : Option Layout := do
  let (rest, mark, keyAllowed) := afterSpace l.inFlow l.keyAllowed l.mark l.rest
  let l ← { l with rest := rest, mark := mark, keyAllowed := keyAllowed }.forgetOver?
  some (l.close (· ≤ l.mark.column))

def directive? (l : Layout) : Option Layout := do
  let l ← (l.close fun _ => false).forget?
  let (token, rest) ← Yaml.directive? (l.rest.drop 1)
  some ({ l with keyAllowed := false }.moveTo rest |>.emit token)

def marker? (l : Layout) (token : Token) : Option Layout := do
  let l ← (l.close fun _ => false).forget?
  some ({ l with keyAllowed := false }.advance 3 |>.emit token)

def openFlow? (l : Layout) (token : Token) : Option Layout := do
  let l ← l.consider?
  some { l.emitMark token with
    candidate? := none
    outer := l.candidate? :: l.outer
    keyAllowed := true }

def closeFlow? (l : Layout) (token : Token) : Option Layout := do
  let l ← l.forget?
  some { l.emitMark token with
    candidate? := l.outer.head?.join
    outer := l.outer.tail
    keyAllowed := false }

def comma? (l : Layout) : Option Layout := do
  let l ← l.forget?
  some { l.emitMark .comma with keyAllowed := true }

/-- In a block a hyphen, or the mark of a key, starts an item of a collection. -/
def item? (l : Layout) (collection : Token) : Option Layout :=
  if l.inFlow then l.forget?
  else if l.keyAllowed then (l.openAt l.mark.column l.count collection).forget?
  else none

def hyphen? (l : Layout) : Option Layout := do
  let l ← l.item? .blockSequence
  some { l.emitMark .entry with keyAllowed := true }

def key? (l : Layout) : Option Layout := do
  let l ← l.item? .blockMap
  some { l.emitMark .key with keyAllowed := !l.inFlow }

/-- The colon makes a key of the candidate. Without one it follows a key that has its mark, or
none. -/
def value? (l : Layout) : Option Layout :=
  match l.candidate? with
  | some candidate =>
      let l := l.emitAt candidate.place .key
      let l := l.openAt candidate.mark.column candidate.place .blockMap
      some { l.emitMark .value with candidate? := none, keyAllowed := false }
  | none =>
      if l.inFlow then some { l.emitMark .value with keyAllowed := false }
      else if l.keyAllowed then
        some { (l.openAt l.mark.column l.count .blockMap).emitMark .value with keyAllowed := true }
      else none

def marked? (l : Layout) (read : Text → Option (Text × Text)) (token : Text → Token) :
    Option Layout := do
  let l ← l.consider?
  let (text, rest) ← read (l.rest.drop 1)
  some ({ l with keyAllowed := false }.moveTo rest |>.emit (token text))

def inside (l : Layout) : Nat :=
  (l.columns.head?.map (· + 1)).getD 0

def block? (l : Layout) (folded : Bool) : Option Layout := do
  let l ← l.forget?
  let (text, rest) ← blockScalar? folded l.inside (l.rest.drop 1)
  some ({ l with keyAllowed := true }.moveTo rest |>.emit (.scalar text))

def plain? (l : Layout) : Option Layout := do
  let l ← l.consider?
  let x ← Yaml.plain? l.inFlow l.inside l.rest
  some ({ l with keyAllowed := x.endsLine }.moveTo x.rest |>.emit (.scalar x.text))

def take? (l : Layout) : Option Layout :=
  match l.rest with
  | [] => none
  | c :: rest =>
      if l.mark.column = 0 ∧ c = '%' then l.directive?
      else if l.mark.column = 0 ∧ atMarker (c :: rest) then
        l.marker? (if c = '-' then .documentStart else .documentEnd)
      else if startsPlain l.inFlow (c :: rest) then l.plain?
      else
        match c with
        | '[' => l.openFlow? .openSequence
        | '{' => l.openFlow? .openMap
        | ']' => l.closeFlow? .closeSequence
        | '}' => l.closeFlow? .closeMap
        | ',' => l.comma?
        | '-' => l.hyphen?
        | '?' => l.key?
        | ':' => l.value?
        | '*' => l.marked? name? .alias
        | '&' => l.marked? name? .anchor
        | '!' => l.marked? (tag? l.inFlow) .tag
        | '\'' => l.marked? single? .scalar
        | '"' => l.marked? double? .scalar
        | '|' => if l.inFlow then none else l.block? false
        | '>' => if l.inFlow then none else l.block? true
        | _ => none

def finish? (l : Layout) : Option Layout :=
  if (l.candidate? :: l.outer).any fun c? => c?.any Candidate.required then none
  else some ((l.close fun _ => false).emit .textEnd)

/-- Every token takes a character at least, so the length of the text bounds the steps. A row that
does not come to its end stops with `junk` in the place of the first token that is not settled. -/
def row (whole : Bool) : (steps : Nat) → Layout → List Token
  | 0, l => l.settled ++ [.junk]
  | steps + 1, l =>
      match l.approach? with
      | none => l.settled ++ [.junk]
      | some near =>
          if near.rest.isEmpty then
            match if whole then near.finish? else none with
            | none => l.settled ++ [.junk]
            | some last => last.tokens.reverse
          else
            match near.take?.bind forgetOver? with
            | none => l.settled ++ [.junk]
            | some next => row whole steps next

end Layout

/-- Three characters are looked ahead at each token. Where a text cannot be read to its end, the
last three that can be read start none. -/
def Token.row (s : Text) : List Token :=
  let (legible, whole) := legible blockSize [] s
  let text := unifyBreaks (if whole then legible else legible.take (legible.length - 3))
  Layout.row whole (text.length + 1) { rest := text }

end SignalBox.Yaml
