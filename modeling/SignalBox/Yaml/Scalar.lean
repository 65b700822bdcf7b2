import SignalBox.Text.Hex
import SignalBox.Yaml.Character

namespace SignalBox.Yaml

/-! Gaps: runs of blanks and line ends inside a scalar. A gap on one line is kept. Over lines, one
line feed becomes a space and of several the first is dropped. -/

namespace Gap

def fold : Text → Text
  | ['\n'] => [' ']
  | '\n' :: more => more
  | breaks => breaks

def text (gap : Text) : Text :=
  match gap.filter isBreak with
  | [] => gap
  | breaks => fold breaks

def hasBreak (gap : Text) : Bool :=
  gap.any isBreak

def endsLine (gap : Text) : Bool :=
  (gap.getLast?.map isBreak).getD false

def column (gap : Text) : Nat :=
  (gap.reverse.takeWhile fun c => !isBreak c).length

def hasTabBefore (indent : Nat) (gap : Text) : Bool :=
  inLine 0 ((skipLine gap).drop 1)
where
  inLine (column : Nat) : Text → Bool
    | [] => false
    | c :: rest =>
        if isBreak c then inLine 0 rest
        else (c = '\t' && column < indent) || inLine (column + 1) rest

end Gap

theorem length_dropWhile_le (p : Char → Bool) (s : Text) : (s.dropWhile p).length ≤ s.length :=
  (List.dropWhile_suffix p).length_le

/-! Quoted scalars, from behind the opening quote: the text and what follows the closing quote. No
line inside starts with a document marker. -/

def single? (s : Text) : Option (Text × Text) :=
  match s with
  | [] => none
  | '\'' :: '\'' :: rest => (single? rest).map fun (text, after) => ('\'' :: text, after)
  | c :: rest =>
      if c = '\'' then some ([], rest)
      else if isWhite c then
        let gap := c :: rest.takeWhile isWhite
        let next := rest.dropWhile isWhite
        have := length_dropWhile_le isWhite rest
        if Gap.endsLine gap && atMarker next then none
        else (single? next).map fun (text, after) => (Gap.text gap ++ text, after)
      else (single? rest).map fun (text, after) => (c :: text, after)
termination_by s.length

def escaped? : Char → Option Char
  | '0' => some '\x00'
  | 'a' => some '\x07'
  | 'b' => some '\x08'
  | 't' => some '\t'
  | '\t' => some '\t'
  | 'n' => some '\n'
  | 'v' => some '\x0b'
  | 'f' => some '\x0c'
  | 'r' => some '\r'
  | 'e' => some '\x1b'
  | ' ' => some ' '
  | '"' => some '"'
  | '/' => some '/'
  | '\\' => some '\\'
  | 'N' => some '\u0085'
  | '_' => some '\u00a0'
  | 'L' => some '\u2028'
  | 'P' => some '\u2029'
  | _ => none

def escapeWidth? : Char → Option Nat
  | 'x' => some 2
  | 'u' => some 4
  | 'U' => some 8
  | _ => none

def codePoint? (width : Nat) (digits : Text) : Option Char :=
  if digits.length = width then
    (Text.hex? digits).bind fun n => if n.isValidChar then some (Char.ofNat n) else none
  else none

/-- An escaped line end is left out, together with the blanks after it. -/
def double? (s : Text) : Option (Text × Text) :=
  match s with
  | [] => none
  | ['\\'] => none
  | '\\' :: c :: rest =>
      if isBreak c then
        let gap := c :: rest.takeWhile isWhite
        let next := rest.dropWhile isWhite
        have := length_dropWhile_le isWhite rest
        if Gap.endsLine gap && atMarker next then none
        else (double? next).map fun (text, after) => ((gap.filter isBreak).drop 1 ++ text, after)
      else
        match escapeWidth? c with
        | some width =>
            have : (rest.drop width).length ≤ rest.length :=
              List.length_drop ▸ Nat.sub_le _ _
            (codePoint? width (rest.take width)).bind fun e =>
              (double? (rest.drop width)).map fun (text, after) => (e :: text, after)
        | none => (escaped? c).bind fun e =>
            (double? rest).map fun (text, after) => (e :: text, after)
  | c :: rest =>
      if c = '"' then some ([], rest)
      else if isWhite c then
        let gap := c :: rest.takeWhile isWhite
        let next := rest.dropWhile isWhite
        have := length_dropWhile_le isWhite rest
        if Gap.endsLine gap && atMarker next then none
        else (double? next).map fun (text, after) => (Gap.text gap ++ text, after)
      else (double? rest).map fun (text, after) => (c :: text, after)
termination_by s.length
decreasing_by
  all_goals
    simp only [List.length_cons]
    omega

/-! Plain scalars are words with gaps between them. A flow collection also ends them with its
marks. -/

def isFlowMark (c : Char) : Bool :=
  c = ',' || c = '[' || c = ']' || c = '{' || c = '}'

/-- In a flow collection, a colon right before one of its marks fits nowhere. -/
def isStrayColon (inFlow : Bool) : Text → Bool
  | ':' :: c :: _ => inFlow && (isFlowMark c || c = '?')
  | _ => false

def reserved : List Char :=
  ['-', '?', ':', ',', '[', ']', '{', '}', '#', '&', '*', '!', '|', '>', '\'', '"', '%', '@',
    '\x60']

def startsPlain (inFlow : Bool) : Text → Bool
  | [] => false
  | c :: rest =>
      if c = '-' || (!inFlow && (c = '?' || c = ':')) then !atGap rest
      else !isWhite c && !reserved.contains c

def endsWord (inFlow : Bool) (c : Char) (rest : Text) : Bool :=
  isWhite c || (c = ':' && atGap rest) || (inFlow && isFlowMark c) ||
    isStrayColon inFlow (c :: rest)

def word (inFlow : Bool) : Text → Text × Text
  | [] => ([], [])
  | c :: rest =>
      if endsWord inFlow c rest then ([], c :: rest)
      else
        let (w, after) := word inFlow rest
        (c :: w, after)

theorem word_parts (inFlow : Bool) (s : Text) : (word inFlow s).1 ++ (word inFlow s).2 = s := by
  induction s with
  | nil => rfl
  | cons c s ih =>
      rw [word]
      split
      · rfl
      · exact congrArg (c :: ·) ih

structure Plain where
  text : Text
  rest : Text
  endsLine : Bool
deriving DecidableEq, Repr

/-- What follows a word. Outside of flow collections the scalar goes on only right of the
indentation. -/
def plainAfter? (inFlow : Bool) (indent : Nat) (s : Text) : Option Plain :=
  if isStrayColon inFlow s then none
  else
    let gap := s.takeWhile isWhite
    let next := s.dropWhile isWhite
    if gap.isEmpty then some ⟨[], s, false⟩
    else if Gap.hasTabBefore indent gap then none
    else
      let ended := some ⟨[], next, Gap.hasBreak gap⟩
      if (!inFlow && Gap.hasBreak gap && Gap.column gap < indent) ||
          (Gap.endsLine gap && atMarker next) || next.head? = some '#' then ended
      else
        match h : word inFlow next with
        | ([], _) => if isStrayColon inFlow next then none else ended
        | (c :: w, after) =>
            have : after.length < s.length := by
              have parts := congrArg List.length (word_parts inFlow next)
              have : next.length ≤ s.length := length_dropWhile_le isWhite s
              rw [h] at parts
              simp only [List.length_append, List.length_cons] at parts
              omega
            (plainAfter? inFlow indent after).map fun x =>
              { x with text := Gap.text gap ++ c :: w ++ x.text }
termination_by s.length

def plain? (inFlow : Bool) (indent : Nat) (s : Text) : Option Plain :=
  let (w, after) := word inFlow s
  (plainAfter? inFlow indent after).map fun x => { x with text := w ++ x.text }

end SignalBox.Yaml
