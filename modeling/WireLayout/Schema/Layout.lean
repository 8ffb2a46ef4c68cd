import WireLayout.Schema

/-!
# Layouts

The fields of a body in wire order. A field has a key in either kind of layout: its name, or the decimal text of its position.
`Layout.entries` is the one view through which bodies are run and merged.
-/

namespace WireLayout

namespace Layout

/-- A named layout without fields. -/
def emptyNamed : Layout := .named []

/-- A positional layout without fields. -/
def emptyPositional : Layout := .positional []

/-- The number of fields. -/
def size : Layout → Nat
  | .named fields => fields.length
  | .positional items => items.length

/-- Whether there is no field. -/
def isEmpty (layout : Layout) : Bool := layout.size == 0

/-- Whether fields are addressed by position. -/
def isPositional : Layout → Bool
  | .named _ => false
  | .positional _ => true

/-- Adds a field. A known name keeps its place and takes the new schema; a positional layout ignores the name. -/
def field (layout : Layout) (name : String) (candidate : Candidate) : Layout :=
  match layout with
  | .named fields => .named (Keyed.insert fields name candidate)
  | .positional items => .positional (items ++ [candidate])

/-- Adds a field under the next position. -/
def item (layout : Layout) (candidate : Candidate) : Layout :=
  layout.field (Position.key layout.size) candidate

/-- The schema of the field that a key addresses. -/
def get? (layout : Layout) (key : String) : Option Candidate :=
  match layout with
  | .named fields => fields.lookup key
  | .positional items => Position.lookup key items

/-- Items under the keys of their positions, counted from `start`. -/
def positionEntries (start : Nat) : List Candidate → Keyed Candidate
  | [] => []
  | candidate :: rest => (Position.key start, candidate) :: positionEntries (start + 1) rest

/-- The fields under their keys, in wire order. -/
def entries : Layout → Keyed Candidate
  | .named fields => fields
  | .positional items => positionEntries 0 items

/-- The keys in wire order. -/
def keys (layout : Layout) : List String := Keyed.keys layout.entries

/-- A list or a record without contents: the start of the value that a body builds up. -/
def emptyValue : Layout → Value
  | .named _ => .record []
  | .positional _ => .list []

end Layout

end WireLayout
