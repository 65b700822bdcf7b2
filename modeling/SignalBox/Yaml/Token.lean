import SignalBox.Text.Hex
import SignalBox.Yaml.Character

namespace SignalBox.Yaml

inductive Token where
  | version (major minor : Nat)
  | tagHandle (handle : Text)
  | documentStart
  | documentEnd
  | blockSequence
  | blockMap
  | blockEnd
  | openSequence
  | closeSequence
  | openMap
  | closeMap
  | entry
  | comma
  | key
  | value
  | alias (name : Text)
  | anchor (name : Text)
  /-- The tag of a node, of which its handle matters; a tag that is written in full has none. -/
  | tag (handle : Text)
  | scalar (text : Text)
  | textEnd
  | junk
deriving DecidableEq, Repr

def endsName : Text → Bool
  | [] => true
  | c :: _ =>
      isWhite c || c = '?' || c = ':' || c = ',' || c = ']' || c = '}' || c = '%' || c = '@' ||
        c = '\x60'

def name? (s : Text) : Option (Text × Text) :=
  let name := s.takeWhile isWordChar
  let after := s.dropWhile isWordChar
  if name ≠ [] ∧ endsName after then some (name, after) else none

def isTagChar (verbatim : Bool) (c : Char) : Bool :=
  isWordChar c || ";/?:@&=+$.!~*'()".toList.contains c || (verbatim && ",[]".toList.contains c)

def octetsAfter? (octet : Nat) : Option Nat :=
  if octet < 0x80 then some 0
  else if octet < 0xC0 then none
  else if octet < 0xE0 then some 1
  else if octet < 0xF0 then some 2
  else if octet < 0xF8 then some 3
  else none

/-- What follows the characters of a tag. Percent signs stand before single octets; `left` of them
are still missing in the current character. -/
def afterTagChars? (verbatim : Bool) (left : Nat) : Text → Option Text
  | [] => if left = 0 then some [] else none
  | '%' :: a :: b :: rest => do
      let octet ← Text.hex? [a, b]
      if left = 0 then afterTagChars? verbatim (← octetsAfter? octet) rest
      else if octet / 0x40 = 2 then afterTagChars? verbatim (left - 1) rest
      else none
  | c :: rest =>
      if left ≠ 0 ∨ c = '%' then none
      else if isTagChar verbatim c then afterTagChars? verbatim 0 rest
      else some (c :: rest)

def tagChars? (verbatim : Bool) (s : Text) : Option Text :=
  (afterTagChars? verbatim 0 s).bind fun after => if after = s then none else some after

/-- A handle stands between two exclamation marks; a name with one mark before it has that mark as
its handle, and a lone mark is a full tag. -/
def tagHandle? (s : Text) : Option (Text × Text) :=
  match s with
  | '<' :: rest => do
      match ← tagChars? true rest with
      | '>' :: after => some ([], after)
      | _ => none
  | _ =>
      match s.dropWhile isWordChar with
      | '!' :: rest => do
          let after ← tagChars? false rest
          some ('!' :: s.takeWhile isWordChar ++ ['!'], after)
      | rest => do
          let after ← afterTagChars? false 0 rest
          some (if after = s then [] else ['!'], after)

def tag? (inFlow : Bool) (s : Text) : Option (Text × Text) := do
  let (handle, after) ← tagHandle? s
  if atGap after ∨ (inFlow ∧ after.head? = some ',') then some (handle, after) else none

def versionNumber? (s : Text) : Option (Nat × Text) :=
  let digits := s.takeWhile Char.isDigit
  if digits = [] ∨ 9 < digits.length then none
  else some (Nat.ofDigitChars 10 digits 0, s.dropWhile Char.isDigit)

def version? (s : Text) : Option (Token × Text) := do
  let (major, after) ← versionNumber? (skipBlanks s)
  match after with
  | '.' :: rest => do
      let (minor, after) ← versionNumber? rest
      some (.version major minor, after)
  | _ => none

def declaredHandle? (s : Text) : Option (Text × Text) :=
  match s with
  | '!' :: rest =>
      match rest.takeWhile isWordChar, rest.dropWhile isWordChar with
      | name, '!' :: after => some ('!' :: name ++ ['!'], after)
      | [], after => some (['!'], after)
      | _, _ => none
  | _ => none

def tagDirective? (s : Text) : Option (Token × Text) := do
  let (handle, after) ← declaredHandle? (skipBlanks s)
  if (after.head?.map isBlank).getD false then
    let after ← tagChars? true (skipBlanks after)
    if atGap after then some (.tagHandle handle, after) else none
  else none

def directive? (s : Text) : Option (Token × Text) := do
  let name := s.takeWhile isWordChar
  let after := s.dropWhile isWordChar
  if !atGap after then none
  else
    let (token, after) ←
      if name = "YAML".toList then version? after
      else if name = "TAG".toList then tagDirective? after
      else none
    some (token, (← lineEnd? after).drop 1)

end SignalBox.Yaml
