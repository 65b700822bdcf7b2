import SignalBox.Yaml.Event

namespace SignalBox.Yaml

/-! Maps from scalars to scalars. A collection in the place of a key or a value ends what is read of
the map. -/

structure FlatMap where
  /-- The entries up to the end of the map, or up to the place where the text stops being such a
  map. -/
  entries : List (Text × Text)
  complete : Bool
deriving DecidableEq, Repr

namespace FlatMap

/-! Anchors. Each gets the number of names that are known before it; a name has its last number and
a number its last node. -/

structure Anchors where
  numbers : List (Text × Nat) := []
  texts : List (Nat × Option Text) := []

def Anchors.add (anchors : Anchors) (name : Text) (text? : Option Text) : Anchors :=
  let number := anchors.numbers.length
  { numbers := (name, number) :: anchors.numbers.filter fun known => known.1 ≠ name
    texts := (number, text?) :: anchors.texts }

inductive Part where
  | text (s : Text)
  | numbered (number : Nat)
  | openMap
  | openSequence
  | close
deriving DecidableEq, Repr

def part? (anchors : Anchors) : Event → Option (Anchors × Part)
  | .scalar anchor? text => some (add anchor? (some text), .text text)
  | .empty anchor? => some (add anchor? (some []), .text [])
  | .alias anchor => (anchors.numbers.lookup anchor).map fun number => (anchors, .numbered number)
  | .openMap anchor? => some (add anchor? none, .openMap)
  | .openSequence anchor? => some (add anchor? none, .openSequence)
  | .close => some (anchors, .close)
where
  add (anchor? : Option Text) (text? : Option Text) : Anchors :=
    anchor?.elim anchors fun name => anchors.add name text?

/-- The parts before an alias of an anchor that is not known, and whether they are all. -/
def parts (anchors : Anchors) : List Event → Anchors × List Part × Bool
  | [] => (anchors, [], true)
  | event :: rest =>
      match part? anchors event with
      | none => (anchors, [], false)
      | some (anchors, part) =>
          let (anchors, later, all) := parts anchors rest
          (anchors, part :: later, all)

def Part.text? (anchors : Anchors) : Part → Option Text
  | .text s => some s
  | .numbered number => (anchors.texts.lookup number).join
  | _ => none

def entriesOf (anchors : Anchors) : List Part → List (Text × Text) × Bool
  | .close :: _ => ([], true)
  | key :: value :: rest =>
      match key.text? anchors, value.text? anchors with
      | some k, some v =>
          let (later, closed) := entriesOf anchors rest
          ((k, v) :: later, closed)
      | _, _ => ([], false)
  | _ => ([], false)

def ofEvents (events : List Event) (ended : Bool) : FlatMap :=
  let (anchors, parts, all) := parts {} events
  match events, parts with
  | [], _ => ⟨[], ended⟩
  | [.empty _], _ => ⟨[], ended⟩
  | _, .openMap :: rest =>
      let (entries, closed) := entriesOf anchors rest
      ⟨entries, closed && all && ended⟩
  | _, _ => ⟨[], false⟩

def ofText (s : Text) : FlatMap :=
  let (events, ended) := eventsOf (Token.row s)
  ofEvents events ended

end FlatMap

end SignalBox.Yaml
