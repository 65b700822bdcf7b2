import SignalBox.Yaml.Layout

namespace SignalBox.Yaml

/-! What a document consists of, from the first to the last part. Collections are told by where they
open and where they close. -/

inductive Event where
  | scalar (anchor? : Option Text) (text : Text)
  | empty (anchor? : Option Text)
  | alias (anchor : Text)
  | openMap (anchor? : Option Text)
  | openSequence (anchor? : Option Text)
  | close
deriving DecidableEq, Repr

structure Properties where
  anchor? : Option Text := none
  handle? : Option Text := none
deriving DecidableEq, Repr

/-- A handle has to be declared; a tag that is written in full has none. -/
def Properties.fit (properties : Properties) (handles : List Text) : Bool :=
  properties.handle?.all fun handle => handle = [] || handles.contains handle

/-! Collections that are open, each with the part of it that comes next. -/

inductive MapPhase where
  | rest
  | start (properties : Properties)
  | key (properties : Properties)
  | colon
  /-- After a key without its mark, which has no value. -/
  | bare
  | value (properties : Properties)
deriving DecidableEq, Repr

inductive SequencePhase where
  | rest
  | element (properties : Properties)
deriving DecidableEq, Repr

inductive Frame where
  | document (properties : Properties)
  | blockMap (phase : MapPhase)
  | flowMap (phase : MapPhase)
  /-- A map of one entry that is an element of a flow sequence. -/
  | pair (phase : MapPhase)
  | blockSequence (phase : SequencePhase)
  /-- A sequence that has the column of the map around it. -/
  | looseSequence (phase : SequencePhase)
  | flowSequence (phase : SequencePhase)
deriving DecidableEq, Repr

namespace Frame

def inFlow : Frame → Bool
  | .flowMap _ => true
  | .pair _ => true
  | .flowSequence _ => true
  | _ => false

def isBlockMap : Frame → Bool
  | .blockMap _ => true
  | _ => false

def properties? : Frame → Option Properties
  | .document p => some p
  | .blockMap phase => ofMap phase
  | .flowMap phase => ofMap phase
  | .pair phase => ofMap phase
  | .blockSequence phase => ofSequence phase
  | .looseSequence phase => ofSequence phase
  | .flowSequence phase => ofSequence phase
where
  ofMap : MapPhase → Option Properties
    | .start p => some p
    | .key p => some p
    | .value p => some p
    | _ => none
  ofSequence : SequencePhase → Option Properties
    | .element p => some p
    | .rest => none

def setProperties (p : Properties) : Frame → Frame
  | .document _ => .document p
  | .blockMap phase => .blockMap (inMap phase)
  | .flowMap phase => .flowMap (inMap phase)
  | .pair phase => .pair (inMap phase)
  | .blockSequence phase => .blockSequence (inSequence phase)
  | .looseSequence phase => .looseSequence (inSequence phase)
  | .flowSequence phase => .flowSequence (inSequence phase)
where
  inMap : MapPhase → MapPhase
    | .start _ => .start p
    | .key _ => .key p
    | .value _ => .value p
    | phase => phase
  inSequence : SequencePhase → SequencePhase
    | .element _ => .element p
    | .rest => .rest

def filled : Frame → List Frame
  | .document _ => []
  | .blockMap phase => [.blockMap (next phase)]
  | .flowMap phase => [.flowMap (next phase)]
  | .pair phase => [.pair (next phase)]
  | .blockSequence _ => [.blockSequence .rest]
  | .looseSequence _ => [.looseSequence .rest]
  | .flowSequence _ => [.flowSequence .rest]
where
  next : MapPhase → MapPhase
    | .start _ => .bare
    | .key _ => .colon
    | _ => .rest

end Frame

/-! The result of a step: what it adds, and the frames to go on with, if the token fits. -/

abbrev Step := List Event × Option (List Frame)

namespace Step

def fault : Step := ([], none)

def on (events : List Event) (frames : List Frame) : Step :=
  (events, some frames)

def before (events : List Event) (step : Step) : Step :=
  (events ++ step.1, step.2)

end Step

def content? (handles : List Text) (frame : Frame) (around : List Frame) (p : Properties)
    (token : Token) : Option Step :=
  let after := frame.filled ++ around
  let node (event : Event) (frames : List Frame) : Step :=
    if p.fit handles then .on [event] frames else .fault
  match token with
  | .anchor name =>
      if p.anchor? = none then
        some (.on [] (frame.setProperties { p with anchor? := some name } :: around))
      else none
  | .tag handle =>
      if p.handle? = none then
        some (.on [] (frame.setProperties { p with handle? := some handle } :: around))
      else none
  | .alias name => if p = {} then some (.on [.alias name] after) else none
  | .scalar text => some (node (.scalar p.anchor? text) after)
  | .openSequence =>
      some (node (.openSequence p.anchor?) (.flowSequence (.element {}) :: after))
  | .openMap => some (node (.openMap p.anchor?) (.flowMap (.start {}) :: after))
  | .blockSequence =>
      if frame.inFlow then none
      else some (node (.openSequence p.anchor?) (.blockSequence .rest :: after))
  | .blockMap =>
      if frame.inFlow then none else some (node (.openMap p.anchor?) (.blockMap .rest :: after))
  | .entry =>
      if frame.isBlockMap then
        some (node (.openSequence p.anchor?) (.looseSequence (.element {}) :: after))
      else none
  | _ => none

/-- A node may be left empty if it has properties, and before certain tokens. -/
def left? (handles : List Text) (p : Properties) (stops : List Token) (token : Token) :
    Option (List Event) :=
  if p.fit handles ∧ (p ≠ {} ∨ stops.contains token) then some [.empty p.anchor?] else none

def MapPhase.left? (handles : List Text) (keyStops valueStops : List Token) (token : Token) :
    MapPhase → Option (List Event)
  | .rest => some []
  | .start p => (Yaml.left? handles p [] token).map (· ++ [.empty none])
  | .key p => (Yaml.left? handles p keyStops token).map (· ++ [.empty none])
  | .colon => some [.empty none]
  | .bare => some [.empty none]
  | .value p => Yaml.left? handles p valueStops token

def SequencePhase.left? (handles : List Text) (stops : List Token) (token : Token) :
    SequencePhase → Option (List Event)
  | .rest => some []
  | .element p => Yaml.left? handles p stops token

def blockStops : List Token :=
  [.key, .value, .blockEnd]

def blockMapStep (handles : List Text) (around : List Frame) (phase : MapPhase) (token : Token) :
    Step :=
  match phase.left? handles blockStops blockStops token, token with
  | none, _ => .fault
  | some left, .key => .on left (.blockMap (.key {}) :: around)
  | some left, .blockEnd => .on (left ++ [.close]) around
  | some left, .value =>
      match phase with
      | .key _ => .on (left.take 1) (.blockMap (.value {}) :: around)
      | .colon => .on [] (.blockMap (.value {}) :: around)
      | _ => (left, none)
  | some left, _ => (left, none)

def flowMapStep (handles : List Text) (around : List Frame) (phase : MapPhase) (token : Token) :
    Step :=
  if phase = .start {} ∧ token = .key then .on [] (.flowMap (.key {}) :: around)
  else if phase = .start {} ∧ token = .closeMap then .on [.close] around
  else
    match phase.left? handles [.value, .comma, .closeMap] [.comma, .closeMap] token, token with
    | none, _ => .fault
    | some left, .comma => .on left (.flowMap (.start {}) :: around)
    | some left, .closeMap => .on (left ++ [.close]) around
    | some left, .value =>
        match phase with
        | .key _ => .on (left.take 1) (.flowMap (.value {}) :: around)
        | .colon => .on [] (.flowMap (.value {}) :: around)
        | _ => (left, none)
    | some left, _ => (left, none)

def blockSequenceStep (handles : List Text) (around : List Frame) (phase : SequencePhase)
    (token : Token) : Step :=
  match phase.left? handles [.entry, .blockEnd] token, token with
  | none, _ => .fault
  | some left, .entry => .on left (.blockSequence (.element {}) :: around)
  | some left, .blockEnd => .on (left ++ [.close]) around
  | some left, _ => (left, none)

def flowSequenceStep (handles : List Text) (around : List Frame) (phase : SequencePhase)
    (token : Token) : Step :=
  if phase = .element {} ∧ token = .key then
    .on [.openMap none] (.pair (.key {}) :: .flowSequence .rest :: around)
  else if phase = .element {} ∧ token = .closeSequence then .on [.close] around
  else
    match phase.left? handles [] token, token with
    | none, _ => .fault
    | some left, .comma => .on left (.flowSequence (.element {}) :: around)
    | some left, .closeSequence => .on (left ++ [.close]) around
    | some left, _ => (left, none)

/-- One token, where the first frame is the innermost. A frame that does not end with a token of its
own ends before a token that it cannot use. After the document only its end may be marked. -/
def step (handles : List Text) : List Frame → Token → Step
  | _, .junk => .fault
  | [], token => if token = .documentEnd ∨ token = .textEnd then .on [] [] else .fault
  | frame :: around, token =>
      match frame.properties?.bind fun p => content? handles frame around p token with
      | some result => result
      | none =>
          match frame with
          | .document p =>
              match left? handles p [] token with
              | none => .fault
              | some left => (step handles around token).before left
          | .blockMap phase => blockMapStep handles around phase token
          | .flowMap phase => flowMapStep handles around phase token
          | .blockSequence phase => blockSequenceStep handles around phase token
          | .flowSequence phase => flowSequenceStep handles around phase token
          | .looseSequence phase =>
              match phase.left? handles (.entry :: blockStops) token, token with
              | none, _ => .fault
              | some left, .entry => .on left (.looseSequence (.element {}) :: around)
              | some left, _ => (step handles around token).before (left ++ [.close])
          | .pair phase =>
              let flowStops := [.comma, .closeSequence]
              if phase = .key {} ∧ (.value :: flowStops).contains token then
                .on [.empty none] (.pair .colon :: around)
              else
                match phase.left? handles [] flowStops token, phase, token with
                | none, _, _ => .fault
                | some left, .key _, .value => .on (left.take 1) (.pair (.value {}) :: around)
                | some _, .colon, .value => .on [] (.pair (.value {}) :: around)
                | some left, _, _ => (step handles around token).before (left ++ [.close])

def eventsFrom (handles : List Text) (frames : List Frame) : List Token → List Event × Bool
  | [] => ([], frames.isEmpty)
  | token :: rest =>
      match step handles frames token with
      | (events, none) => (events, false)
      | (events, some frames) =>
          let (later, complete) := eventsFrom handles frames rest
          (events ++ later, complete)

def commonHandles : List Text :=
  [['!'], ['!', '!']]

def prologue? (versioned : Bool) (handles : List Text) :
    List Token → Option (List Text × List Token)
  | .version major minor :: rest =>
      if versioned ∨ major ≠ 1 ∨ (minor ≠ 1 ∧ minor ≠ 2) then none else prologue? true handles rest
  | .tagHandle handle :: rest =>
      if handles.contains handle then none else prologue? versioned (handle :: handles) rest
  | rest => some (handles, rest)

def isContentless : List Token → Bool
  | .version .. :: _ => true
  | .tagHandle _ :: _ => true
  | .documentStart :: _ => true
  | .documentEnd :: _ => true
  | .textEnd :: _ => true
  | _ => false

def eventsOf (tokens : List Token) : List Event × Bool :=
  match prologue? false [] tokens with
  | none => ([], false)
  | some (handles, .documentStart :: rest) =>
      if isContentless rest then
        let (later, complete) := eventsFrom [] [] rest
        (.empty none :: later, complete)
      else eventsFrom (handles ++ commonHandles) [.document {}] rest
  | some (_, rest) =>
      if tokens = [.textEnd] then ([], true)
      else if rest.length = tokens.length then eventsFrom commonHandles [.document {}] tokens
      else ([], false)

end SignalBox.Yaml
