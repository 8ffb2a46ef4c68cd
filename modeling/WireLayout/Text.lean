import WireLayout.Region

/-!
# Text fields

Text in a region of bytes. A region of fixed size is filled up with zeros, so zeros at its end are not part of the text. A
zero-terminated text ends at the first zero byte; without a size the terminator is all that ends it, with a size the text lies in a
region.
-/

namespace WireLayout

namespace Text

/-- The text of a value; null is empty. -/
def ofValue (v : Value) : Packing String :=
  match v with
  | .text s => pure s
  | .null => pure ""
  | _ => Walk.fail (.typeMismatch "string" v.typeName)

/-- Drops zero bytes at the end. -/
def dropPadding (bytes : Bytes) : Bytes := bytes.popWhile (· == 0)

/-- The bytes before the first zero byte. -/
def beforeTerminator (bytes : Bytes) : Bytes := bytes.takeWhile (· != 0)

/-- Reads a text. -/
def unpack (Γ : Context) (size : Count) : Unpacking Value := do
  let raw ← Region.unpack Γ size
  return .text (← Unpacking.decode Γ (if size.isFixed then dropPadding raw else raw))

/-- Writes a text. -/
def pack (Γ : Context) (size : Count) (v : Value) : Packing Unit := do
  let bytes ← Packing.encode Γ (← ofValue v)
  Region.pack Γ size bytes

/-- The position of the first zero byte among the `left` bytes from `i` on. -/
def terminator? (data : Bytes) : (left : Nat) → (i : Nat) → Option Nat
  | 0, _ => none
  | left + 1, i => if data[i]? = some 0 then some i else terminator? data left (i + 1)

/-- Reads up to the first zero byte, and moves past it. -/
def takeTerminated (c : Cursor) : Except Fault (Bytes × Cursor) :=
  match terminator? c.data c.remaining c.position with
  | some stop => .ok (c.data.extract c.position stop, { c with position := stop + 1 })
  | none => .error (.bufferUnderflow c.position (c.remaining + 1) c.remaining)

/-- Reads a zero-terminated text. -/
def unpackTerminated (Γ : Context) (size : Count) : Unpacking Value := do
  let raw ← match size with
    | .auto => Walk.onMedium takeTerminated
    | _ => do pure (beforeTerminator (← Region.unpack Γ size))
  return .text (← Unpacking.decode Γ raw)

/-- Writes a zero-terminated text. -/
def packTerminated (Γ : Context) (size : Count) (v : Value) : Packing Unit := do
  let bytes ← Packing.encode Γ (← ofValue v)
  Region.pack Γ size (bytes.push 0)

end Text

end WireLayout
