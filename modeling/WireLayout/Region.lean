import WireLayout.Walk

/-!
# Counts and regions

A count is fixed, stands in front as a number, or is implied by the end of the input. A region is a run of bytes with such a count:
texts and transformed regions are both stored as one. Writing and reading agree on what stands in front.
-/

namespace WireLayout

namespace Count

/-- A count in front must be a number. -/
def notNumeric (schema : Schema) : Fault :=
  .invalidArgument "array" ("count schema " ++ schema.text ++ " is not numeric")

/-- Takes a value for a count. -/
def ofValue (v : Value) : Unpacking Nat :=
  match v.count? with
  | some n => pure n
  | none => Walk.fail (.typeMismatch "count" v.typeName)

/-- Reads the count; none means as many as there are. -/
def unpack (Γ : Context) : Count → Unpacking (Option Nat)
  | fixed n => pure (some n)
  | prefixed number => do
    let kind ← Walk.resolveNumber Γ number notNumeric
    let v ← Unpacking.number Γ kind
    return some (← ofValue v)
  | auto => pure none

/-- Writes what stands in front of `n` elements. -/
def pack (Γ : Context) (count : Count) (n : Nat) : Packing Unit :=
  match count with
  | prefixed number => do
    let kind ← Walk.resolveNumber Γ number notNumeric
    Packing.onOutput fun out => kind.packCount Γ.options.byteOrder n out
  | _ => pure ()

/-- Whether the count is fixed. -/
def isFixed : Count → Bool
  | fixed _ => true
  | _ => false

end Count

namespace Region

/-- Reads a region. -/
def unpack (Γ : Context) (size : Count) : Unpacking Bytes := do
  match ← size.unpack Γ with
  | some n => Unpacking.take n
  | none => Unpacking.take (← Walk.medium).remaining

/-- Writes a region. One of fixed size is filled up with zeros, or cut. -/
def pack (Γ : Context) (size : Count) (bytes : Bytes) : Packing Unit :=
  match size with
  | .fixed n => Packing.emit (bytes.fit n)
  | _ => do
    size.pack Γ bytes.size
    Packing.emit bytes

end Region

end WireLayout
