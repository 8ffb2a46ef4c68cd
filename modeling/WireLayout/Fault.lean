import WireLayout.Encoding

/-!
# Faults

What can go wrong while schemas are built, resolved, packed or unpacked. A fault belongs to the schema (`FaultKind.schema`) when
the schema itself is malformed, and to the data when the schema is sound but the bytes or values do not fit it. `Stop` adds the
one outcome that is no fault: a run was given up because schemas nested deeper, or candidates were replaced more often, than the
registry allows.
-/

namespace WireLayout

/-- The causes of failure. -/
inductive Fault where
  /-- The candidate did not resolve to any schema. -/
  | unregisteredSchema (identifier : String)
  /-- A schema was built from a malformed argument. -/
  | invalidArgument (builder reason : String)
  /-- A schema that needs an object or union body around it ran outside one. -/
  | missingScope (builder : String)
  /-- A field that another one refers to has not been produced yet. -/
  | undefinedDependency (field : String)
  /-- The name to pack is not part of the enumeration. -/
  | unknownEnumValue (name : String)
  /-- Reading past the end of the input. -/
  | bufferUnderflow (offset needed available : Nat)
  /-- The value has not the shape that the schema expects. -/
  | typeMismatch (expected found : String)
  /-- A count is larger than its numeric prefix can store. -/
  | countOverflow (count : Nat) (kind : String) (max : Nat)
  /-- Bytes or text that the encoding cannot represent. -/
  | invalidEncoding (encoding : Encoding)
  /-- A transform of a byte region failed. -/
  | transform (reason : String)
  deriving DecidableEq, Repr, Inhabited

/-- Whose fault it is. -/
inductive FaultKind where
  | schema
  | data
  deriving DecidableEq, Repr

namespace Fault

/-- The fault in words. -/
def message : Fault → String
  | unregisteredSchema identifier => "schema `" ++ identifier ++ "` is not registered"
  | invalidArgument builder reason => "invalid argument for `" ++ builder ++ "`: " ++ reason
  | missingScope builder => "`" ++ builder ++ "` must run inside an object or union"
  | undefinedDependency field => "field `" ++ field ++ "` is undefined"
  | unknownEnumValue name => "enum value `" ++ name ++ "` not found"
  | bufferUnderflow offset needed available =>
    "buffer underflow at offset " ++ toString offset ++ ": need " ++ toString needed ++ " bytes, have " ++ toString available
  | typeMismatch expected found => "type mismatch: expected " ++ expected ++ ", found " ++ found
  | countOverflow count kind max =>
    "count " ++ toString count ++ " does not fit in `" ++ kind ++ "` (max " ++ toString max ++ ")"
  | invalidEncoding encoding => "invalid " ++ encoding.name ++ " data"
  | transform reason => "transform failed: " ++ reason

/-- A malformed schema, or malformed data. -/
def kind : Fault → FaultKind
  | unregisteredSchema _ | invalidArgument _ _ | missingScope _ => .schema
  | _ => .data

end Fault

/-- Why a run ended without a result. -/
inductive Stop where
  /-- The run failed. -/
  | fault (cause : Fault)
  /-- The run was given up: a limit of the registry was reached. -/
  | exhausted
  deriving DecidableEq, Repr, Inhabited

end WireLayout
