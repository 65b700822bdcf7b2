import SignalBox.Condition
import SignalBox.DeviceTable
import SignalBox.Formula.Reading
import SignalBox.Formula.Size

namespace SignalBox

structure Reader.Options where
  /-- How deep operands may be enclosed. -/
  depthLimit : Nat := 64
  timerSuffix : Text := ['秒']
deriving DecidableEq, Repr

structure Reader where
  devices : DeviceTable
  options : Reader.Options := {}
deriving DecidableEq

namespace Reader

def trackEnding : Text := ['T']

/-- The category of a name and the name to record: a timer loses its suffix. A declaration goes
before all habits. -/
def identify (r : Reader) (name : Text) : Category × Text :=
  match r.devices.find? name with
  | some category => (category, name)
  | none =>
      if (Text.dropEnd? trackEnding name).isSome then (.track, name)
      else if r.options.timerSuffix = [] then (.unclassified, name)
      else
        match Text.dropEnd? r.options.timerSuffix name with
        | some seconds => (.timer, seconds)
        | none => (.unclassified, name)

structure Context where
  station : UInt32 := 0
  partialLock : Bool := false
  depth : Nat := 0
  /-- Byte offset in the whole formula. -/
  offset : Nat := 0
deriving DecidableEq, Repr

/-- A station scope never makes the station less deep. -/
def Context.enter (context : Context) (o : Formula.Operand) : Context :=
  let moved := { context with offset := context.offset + o.offset }
  match o.place with
  | .beside => moved
  | .inside => { moved with depth := context.depth + 1 }
  | .inStation depth =>
      { moved with depth := context.depth + 1, station := max context.station depth }
  | .locked => { moved with depth := context.depth + 1, partialLock := true }
  | .unlocked => { moved with partialLock := false }

/-- The last occurrence of the delimiter is the one that is blamed. -/
def blame (context : Context) (s delimiter : Text) : Formula.Error :=
  let before := ((Text.cutLast? delimiter s).map Text.Split.tokenAt).getD 0
  .malformed s delimiter (context.offset + before)

def unclassifiedName (context : Context) (token : Text) : Diagnostic where
  kind := .unclassifiedName
  severity := .warning
  message := s!"'{String.ofList token}' is not in the name table and matches no suffix rule"
  fragment := token
  position? := some context.offset

/-- A name that the table itself declares without a class is no finding. -/
def readName (r : Reader) (context : Context) (decoration : Formula.Decoration) (token : Text) :
    Formula.Reading Condition := do
  let (category, name) := r.identify token
  if category = .unclassified ∧ r.devices.declares token = false then
    Formula.Reading.warn (unclassifiedName context token)
  pure {
    category := category
    station := context.station
    name := name
    reverse := decoration = .reverse
    summary := decoration = .summary
    partialLock := context.partialLock }

/-- Where a choice comes first, its branches go on with the continuation, and only they; else all
conditions do. -/
def continueWith (continuation : List Condition) : List Condition → List Condition
  | [] => []
  | first :: rest =>
      if first.isChoice then
        { first with children := first.children.map (·.followedBy continuation) } :: rest
      else (first :: rest).map (·.followedBy continuation)

def detachedException (context : Context) (s : Text) (base continuation : Formula.Operand) :
    Diagnostic where
  kind := .detachedException
  severity := .warning
  message :=
    s!"'{String.ofList Formula.exceptionMark}' clause has nothing to attach to in " ++
      s!"'{String.ofList s}'"
  fragment := continuation.text
  position? := some (context.offset + Text.byteLength base.text)

def read (r : Reader) (context : Context) (s : Text) : Formula.Reading (List Condition) :=
  if s.isBlank then pure []
  else if r.options.depthLimit < context.depth then throw (.tooDeep r.options.depthLimit s)
  else
    match _ : Formula.cut s with
    | .malformed delimiter => throw (blame context s delimiter)
    | .name decoration token => do
        let condition ← r.readName context decoration token
        pure [condition]
    | .sequence operands =>
        Formula.Reading.gather (fun ⟨o, _⟩ => r.read (context.enter o) o.text) operands.attach
    | .alternatives operands => do
        let branches ← Formula.Reading.gather
          (fun ⟨o, _⟩ => r.read (context.enter o) o.text) operands.attach
        pure [Condition.choice s context.station context.partialLock branches]
    | .exception base continuation => do
        let before ← r.read (context.enter base) base.text
        let after ← r.read (context.enter continuation) continuation.text
        if before = [] ∧ after ≠ [] then
          Formula.Reading.warn (detachedException context s base continuation)
        pure (continueWith after before)
termination_by Text.byteLength s
decreasing_by
  all_goals
    apply Formula.byteLength_lt_of_mem_cut
    simp_all [Formula.Cut.operands]

theorem gather_attach (read : α → Formula.Reading (List β)) (xs : List α) :
    Formula.Reading.gather (fun x : { x // x ∈ xs } => read x.val) xs.attach =
      Formula.Reading.gather read xs := by
  rw [← Formula.Reading.gather_map Subtype.val read, List.attach_map_subtype_val]

theorem read_eq (r : Reader) (context : Context) (s : Text) :
    r.read context s =
      (if s.isBlank then pure []
      else if r.options.depthLimit < context.depth then throw (.tooDeep r.options.depthLimit s)
      else
        match Formula.cut s with
        | .malformed delimiter => throw (blame context s delimiter)
        | .name decoration token => do
            let condition ← r.readName context decoration token
            pure [condition]
        | .sequence operands =>
            Formula.Reading.gather (fun o => r.read (context.enter o) o.text) operands
        | .alternatives operands => do
            let branches ← Formula.Reading.gather
              (fun o => r.read (context.enter o) o.text) operands
            pure [Condition.choice s context.station context.partialLock branches]
        | .exception base continuation => do
            let before ← r.read (context.enter base) base.text
            let after ← r.read (context.enter continuation) continuation.text
            if before = [] ∧ after ≠ [] then
              Formula.Reading.warn (detachedException context s base continuation)
            pure (continueWith after before)) := by
  have each := gather_attach fun o => r.read (context.enter o) o.text
  rw [read]
  split
  · rfl
  · split
    · rfl
    · split <;> simp_all only

def readInto (r : Reader) (log : List Diagnostic) (context : Context) (s : Text) :
    Except Formula.Error (List Condition) × List Diagnostic :=
  (r.read context s).run log

def parse (r : Reader) (s : Text) : Except Formula.Error (List Condition) :=
  (r.readInto [] {} s).1

end Reader

end SignalBox
