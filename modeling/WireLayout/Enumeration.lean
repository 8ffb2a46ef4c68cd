import WireLayout.Walk

/-!
# Enumerations

Names for the numbers of a base kind. A number that several names share reads as the first of them, and one without a name reads as
itself; in the other direction numbers pass through and a name must be known.
-/

namespace WireLayout

namespace Enumeration

/-- The base must be a number. -/
def notNumeric (schema : Schema) : Fault :=
  .invalidArgument "enums" ("base schema " ++ schema.text ++ " is not numeric")

/-- The first name of a number, or the number itself. -/
def nameOf (names : List (String × Int64)) (raw : Value) : Value :=
  match names.find? fun entry => raw.looselyEq (.int entry.2) with
  | some entry => .text entry.1
  | none => raw

/-- The number to write for a value. -/
def numberOf (names : List (String × Int64)) (v : Value) : Except Fault Value :=
  match v with
  | .int _ | .float _ | .null => .ok v
  | .text name =>
    match names.lookup name with
    | some n => .ok (.int n)
    | none => .error (.unknownEnumValue name)
  | _ => .error (.typeMismatch "enum name or number" v.typeName)

/-- Reads a number and gives its name. -/
def unpack (Γ : Context) (names : List (String × Int64)) (base : Candidate) : Unpacking Value := do
  let kind ← Walk.resolveNumber Γ base notNumeric
  let raw ← Unpacking.number Γ kind
  return nameOf names raw

/-- Writes the number of a name. -/
def pack (Γ : Context) (names : List (String × Int64)) (base : Candidate) (v : Value) : Packing Unit := do
  let kind ← Walk.resolveNumber Γ base notNumeric
  let n ← Walk.ofExcept (numberOf names v)
  Packing.number Γ kind n

end Enumeration

end WireLayout
