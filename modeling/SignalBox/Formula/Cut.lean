import SignalBox.Text.Run

/-! One step of taking a formula apart. The step goes by the position of the delimiters alone and
knows neither devices nor limits. Loosest first: grouping, station scopes and exceptions, whichever
stands furthest right; alternatives; sequences; partial locks; decorated names side by side; one
name. -/

namespace SignalBox.Formula

def exceptionMark : Text := ['但']

def alternativeMark : Text := ['又', 'は']

def sequenceMark : Text := [' ']

def adjacentMark : Text := [')', '(']

inductive Place where
  | beside
  | inside
  | inStation (depth : UInt32)
  | locked
  | unlocked
deriving DecidableEq, Repr

structure Operand where
  offset : Nat
  text : Text
  place : Place
deriving DecidableEq, Repr

inductive Decoration where
  | plain
  | reverse
  | summary
deriving DecidableEq, Repr

def Decoration.closing : Decoration → Text
  | .summary => [')', ')']
  | _ => [')']

inductive Cut where
  | name (decoration : Decoration) (token : Text)
  | sequence (operands : List Operand)
  | alternatives (operands : List Operand)
  | exception (base continuation : Operand)
  | malformed (delimiter : Text)
deriving DecidableEq, Repr

def Cut.operands : Cut → List Operand
  | .name _ _ => []
  | .sequence operands => operands
  | .alternatives operands => operands
  | .exception base continuation => [base, continuation]
  | .malformed _ => []

/-- The three parts of an enclosure: those outside share one place. -/
def Operand.ofEnclosure (outer inner : Place) (x : Text.Enclosure) : List Operand :=
  [⟨0, x.before, outer⟩, ⟨x.betweenAt, x.between, inner⟩, ⟨x.afterAt, x.after, outer⟩]

def Operand.ofPiece (place : Place) (p : Text.Piece) : Operand :=
  ⟨p.offset, p.text, place⟩

def Operand.ofDecorated (x : Text.Enclosure) : List Operand :=
  [⟨0, x.before, .beside⟩,
    ⟨x.openAt, x.opening ++ x.between ++ x.closing, .inside⟩,
    ⟨x.afterAt, x.after, .beside⟩]

def Cut.group (s : Text) : Cut :=
  match Text.enclosedByLast? ['{'] ['}'] s with
  | none => .malformed ['}']
  | some x => .sequence (Operand.ofEnclosure .beside .inside x)

/-- As many brackets as the last closing run has stand for as deep a station. -/
def Cut.stationScope (s : Text) : Cut :=
  let n := Text.runAtLast [']'] s
  match Text.enclosedByRun? ['['] [']'] n s with
  | none => .malformed (Text.copies n [']'])
  | some x => .sequence (Operand.ofEnclosure .beside (.inStation (UInt32.ofNatClamp n)) x)

def Cut.exceptionAt (x : Text.Split) : Cut :=
  .exception ⟨0, x.before, .beside⟩ ⟨x.afterAt, x.after, .beside⟩

def Cut.partialLock (s : Text) : Cut :=
  match Text.enclosedByLast? ['<'] ['>'] s with
  | none => .malformed ['>']
  | some x => .sequence (Operand.ofEnclosure .unlocked .locked x)

/-- The last decorated name; its run of openings tells how many closings belong to it. -/
def Cut.adjacent (s : Text) : Cut :=
  match Text.enclosedByRun? ['('] [')'] (Text.runAtLast ['('] s) s with
  | none => .malformed adjacentMark
  | some x => .sequence (Operand.ofDecorated x)

def Decoration.strip (s : Text) : Decoration × Text :=
  match Text.unwrap? ['(', '('] [')', ')'] s with
  | some token => (.summary, token)
  | none =>
      match Text.unwrap? ['('] [')'] s with
      | some token => (.reverse, token)
      | none => (.plain, s)

def Cut.single (s : Text) : Cut :=
  let (decoration, token) := Decoration.strip s
  if token.isBlank then .malformed decoration.closing else .name decoration token

def Cut.undivided (s : Text) : Cut :=
  if Text.contains alternativeMark s then
    .alternatives ((Text.pieces alternativeMark s).map (Operand.ofPiece .inside))
  else if Text.contains sequenceMark s then
    .sequence ((Text.pieces sequenceMark s).map (Operand.ofPiece .beside))
  else if Text.contains ['>'] s then Cut.partialLock s
  else if Text.contains adjacentMark s then Cut.adjacent s
  else Cut.single s

inductive Divider where
  | group
  | station
  | exception
deriving DecidableEq, Repr

def Divider.mark : Divider → Text
  | .group => ['}']
  | .station => [']']
  | .exception => exceptionMark

def cut (s : Text) : Cut :=
  match Text.furthestRight? Divider.mark s [.group, .station, .exception] with
  | some (.group, _) => Cut.group s
  | some (.station, _) => Cut.stationScope s
  | some (.exception, x) => Cut.exceptionAt x
  | none => Cut.undivided s

end SignalBox.Formula
