import WireLayout.Registry

/-!
# Scopes

The body of an object or union that is being run, as its fields see it: the layout, the value (the caller's input when packing, what
is read so far when unpacking), the output positions at which fields started, and whether the body was left.
-/

namespace WireLayout

/-- A body as its fields see it. -/
structure Scope where
  layout : Layout
  value : Value
  offsets : Keyed Nat
  isExited : Bool

namespace Scope

/-- The scope of a body that builds up its value. -/
def reading (layout : Layout) : Scope := { layout, value := layout.emptyValue, offsets := [], isExited := false }

/-- The scope of a body that writes a value. -/
def writing (layout : Layout) (value : Value) : Scope := { layout, value, offsets := [], isExited := false }

/-- The value of a sibling field. -/
def field? (s : Scope) (key : String) : Option Value := s.value.get? key

/-- The schema of a sibling field. -/
def fieldSchema? (s : Scope) (key : String) : Option Candidate := s.layout.get? key

/-- The output position at which a sibling field started. -/
def offset? (s : Scope) (key : String) : Option Nat := s.offsets.lookup key

/-- Leaves the body: no further field is run. -/
def exit (s : Scope) : Scope := { s with isExited := true }

/-- Notes where a field starts. -/
def mark (s : Scope) (key : String) (offset : Nat) : Scope := { s with offsets := Keyed.insert s.offsets key offset }

/-- Adds the value of the next field. -/
def push (s : Scope) (key : String) (v : Value) : Scope :=
  match s.value with
  | .list items => { s with value := .list (items ++ [v]) }
  | .record fields => { s with value := .record (Keyed.insert fields key v) }
  | _ => s

end Scope

end WireLayout
