import WireLayout.Registry.Standard
import WireLayout.Text
import WireLayout.Enumeration
import WireLayout.Body
import WireLayout.Sibling
import WireLayout.Transform
import WireLayout.Extension

/-!
# Packing and unpacking

`Codec.unpackStep` and `Codec.packStep` say what each kind of schema does, given the function that runs schemas inside it. A run
iterates them: `Codec.unpack` and `Codec.pack` allow a number of schemas to run inside one another, and give up below that. Both
directions go down in step, one level for each schema that runs inside another.
-/

namespace WireLayout

namespace Codec

/-- Reads a value of a schema, where `run` reads what is inside it. -/
def unpackStep (Γ : Context) (run : Schema → Unpacking Value) (schema : Schema) : Unpacking Value :=
  match schema with
  | .number kind => Unpacking.number Γ kind
  | .array item count => Elements.unpackArray Γ run item count
  | .string size => Text.unpack Γ size
  | .cstring size => Text.unpackTerminated Γ size
  | .object layout => Body.unpackObject (Unpacking.candidate Γ run) layout
  | .union layout size => Body.unpackUnion (Unpacking.candidate Γ run) layout size
  | .enums names base => Enumeration.unpack Γ names base
  | .depend field selector => Sibling.unpackDepend Γ run field selector
  | .link field item => Sibling.unpackLink Γ run field item
  | .computed operator v => pure (operator.apply v)
  | .exit => do
    Walk.exitScope "exit"
    return .null
  | .parse _ decode inner size => Transform.unpack Γ run decode inner size
  | .custom extension => Extension.unpack Γ run extension.read

/-- Writes a value of a schema, where `run` writes what is inside it. -/
def packStep (Γ : Context) (run : Schema → Value → Packing Unit) (schema : Schema) (v : Value) : Packing Unit :=
  match schema with
  | .number kind => Packing.number Γ kind v
  | .array item count => Elements.packArray Γ run item count v
  | .string size => Text.pack Γ size v
  | .cstring size => Text.packTerminated Γ size v
  | .object layout => Body.packObject (Packing.candidate Γ run) layout v
  | .union layout size => Body.packUnion (Packing.candidate Γ run) layout size v
  | .enums names base => Enumeration.pack Γ names base v
  | .depend field selector => Sibling.packDepend Γ run field selector v
  | .link field item => Sibling.packLink Γ run field item v
  | .computed _ _ => pure ()
  | .exit => Walk.exitScope "exit"
  | .parse encode _ inner size => Transform.pack Γ run encode inner size v
  | .custom extension => Extension.pack Γ run (extension.write v)

/-- Reads a value of a schema, with at most `depth` schemas inside one another. -/
def unpack (Γ : Context) : (depth : Nat) → Schema → Unpacking Value
  | 0, _ => Walk.giveUp
  | depth + 1, schema => unpackStep Γ (unpack Γ depth) schema

/-- Writes a value of a schema, with at most `depth` schemas inside one another. -/
def pack (Γ : Context) : (depth : Nat) → Schema → Value → Packing Unit
  | 0, _, _ => Walk.giveUp
  | depth + 1, schema, v => packStep Γ (pack Γ depth) schema v

/-- Reads a value of what a candidate stands for. -/
def unpackCandidate (Γ : Context) (c : Candidate) : Unpacking Value :=
  Unpacking.candidate Γ (unpack Γ Γ.registry.limits.depth) c

/-- Writes a value of what a candidate stands for. -/
def packCandidate (Γ : Context) (c : Candidate) (v : Value) : Packing Unit :=
  Packing.candidate Γ (pack Γ Γ.registry.limits.depth) c v

end Codec

namespace Registry

/-- The bytes of a value under the given options. -/
def packWith (r : Registry) (c : Candidate) (v : Value) (options : Options) : Except Stop Bytes := do
  let ((), s) ← Codec.packCandidate { registry := r, options } c v { medium := #[], scope := none }
  pure s.medium

/-- The bytes of a value under the default options. -/
def pack (r : Registry) (c : Candidate) (v : Value) : Except Stop Bytes := r.packWith c v r.defaults

/-- The value at the start of the data under the given options; bytes behind it are ignored. -/
def unpackWith (r : Registry) (c : Candidate) (data : Bytes) (options : Options) : Except Stop Value := do
  let (v, _) ← Codec.unpackCandidate { registry := r, options } c { medium := Cursor.ofBytes data, scope := none }
  pure v

/-- The value at the start of the data under the default options. -/
def unpack (r : Registry) (c : Candidate) (data : Bytes) : Except Stop Value := r.unpackWith c data r.defaults

end Registry

end WireLayout
