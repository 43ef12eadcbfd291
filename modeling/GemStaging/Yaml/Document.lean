import GemStaging.Yaml.Event
import GemStaging.Table

/-!
The first document of a stream, as its nodes in the order in which they are written. Aliases are
numbers of anchored nodes. A document keeps what stands before a malformed place, so that a reader
can find fault with that first; `trailing` says that something is wrong behind the document.
-/

namespace GemStaging.Yaml

/-- One part of a document. `void` is the only part of a document that is not there. -/
inductive Node where
  | void
  | repeats (anchor : Nat)
  | scalar (tag : Option String) (text : String) (style : Style)
  | sequenceStart (tag : Option String)
  | sequenceEnd
  | mappingStart (tag : Option String)
  | mappingEnd
deriving DecidableEq, Inhabited

/-- A document: its parts, where each anchored node starts, whether it breaks off, and whether more
follows it than the end of the stream. -/
structure Document where
  nodes : Array Node
  anchors : Table Nat Nat
  broken : Bool
  trailing : Bool

structure Draft where
  nodes : Array Node := #[]
  names : Table String Nat := .empty
  starts : Table Nat Nat := .empty

namespace Draft

def push (d : Draft) (n : Node) : Draft := { d with nodes := d.nodes.push n }

/-- The draft with a node that may be anchored. An anchor's number is the count of the names
before it. -/
def anchored (d : Draft) (anchor : Option String) (n : Node) : Draft :=
  match anchor with
  | none => d.push n
  | some name =>
    let number := d.names.entries.length
    { nodes := d.nodes.push n
      names := d.names.insert name number
      starts := d.starts.insert number d.nodes.size }

def finish (d : Draft) (broken trailing : Bool) : Document :=
  { nodes := d.nodes, anchors := d.starts, broken, trailing }

/-- What one event adds to a draft; none for an alias that names no anchor. -/
def add (d : Draft) : Event → Option Draft
  | .repeats name => (d.names.get? name).map fun number => d.push (.repeats number)
  | .scalar anchor tag text style => some (d.anchored anchor (.scalar tag text style))
  | .sequenceStart anchor tag => some (d.anchored anchor (.sequenceStart tag))
  | .mappingStart anchor tag => some (d.anchored anchor (.mappingStart tag))
  | .sequenceEnd => some (d.push .sequenceEnd)
  | .mappingEnd => some (d.push .mappingEnd)
  | _ => some d

end Draft

def endsCleanly (r : EventReader) : Bool :=
  match r.next with
  | some (.streamEnd, _) => true
  | _ => false

def readDocument : Nat → Draft → EventReader → Document
  | 0, d, _ => d.finish true true
  | fuel + 1, d, r =>
    match r.next with
    | none => d.finish true true
    | some (.streamEnd, _) => (if d.nodes.isEmpty then d.push .void else d).finish false false
    | some (.documentEnd, r) => d.finish false (!endsCleanly r)
    | some (e, r) =>
      match d.add e with
      | none => d.finish true true
      | some d => readDocument fuel d r

def Document.ofText (text : String) : Document :=
  readDocument (text.length * 8 + 64) {} (.ofText text)

end GemStaging.Yaml
