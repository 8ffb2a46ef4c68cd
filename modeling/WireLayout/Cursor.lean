import WireLayout.Fault

/-!
# Cursors

A read position over immutable data. Every operation that would pass the end fails with the bytes it needed and the bytes that
were left, and gives no new cursor; the caller still holds the old one. `Cursor.perform` runs one step that way, and so keeps the
position in bounds along any run of steps, failed ones included.
-/

namespace WireLayout

/-- A read position over input data. -/
structure Cursor where
  data : Bytes
  position : Nat
  deriving DecidableEq, Repr

namespace Bytes

/-- The `n` bytes from `offset` on. -/
def slice (data : Bytes) (offset n : Nat) : Except Fault Bytes :=
  if n ≤ data.size - offset then .ok (data.extract offset (offset + n))
  else .error (.bufferUnderflow offset n (data.size - offset))

/-- The `n` bytes from `offset` on, most significant byte first when the data is in the given order. -/
def sliceOrdered (data : Bytes) (offset n : Nat) (order : ByteOrder) : Except Fault Bytes := do
  let raw ← data.slice offset n
  match order with
  | .little => pure raw.reverse
  | .big => pure raw

end Bytes

namespace Cursor

/-- A cursor at the start of the data. -/
def ofBytes (data : Bytes) : Cursor := { data, position := 0 }

/-- The number of bytes that are not yet read. -/
def remaining (c : Cursor) : Nat := c.data.size - c.position

/-- Whether all bytes are read. -/
def isEmpty (c : Cursor) : Bool := c.remaining == 0

/-- The bytes that are not yet read. -/
def rest (c : Cursor) : Bytes := c.data.extract c.position c.data.size

/-- Reads the next `n` bytes. -/
def take (c : Cursor) (n : Nat) : Except Fault (Bytes × Cursor) := do
  let bytes ← c.data.slice c.position n
  pure (bytes, { c with position := c.position + n })

/-- Moves past the next `n` bytes. -/
def skip (c : Cursor) (n : Nat) : Except Fault Cursor := do
  let (_, c) ← c.take n
  pure c

/-- Moves to an absolute position, at most the end of the data. -/
def seek (c : Cursor) (position : Nat) : Except Fault Cursor :=
  if position ≤ c.data.size then .ok { c with position }
  else .error (.bufferUnderflow c.position (position - c.position) c.remaining)

/-- Reads the next `n` bytes, which are in the given order, and gives them most significant first. -/
def takeOrdered (c : Cursor) (n : Nat) (order : ByteOrder) : Except Fault (Bytes × Cursor) := do
  let bytes ← c.data.sliceOrdered c.position n order
  pure (bytes, { c with position := c.position + n })

/-- One movement of a cursor. -/
inductive Step where
  | take (n : Nat)
  | skip (n : Nat)
  | seek (position : Nat)
  | rest
  | data
  | takeOrdered (n : Nat) (order : ByteOrder)
  deriving DecidableEq, Repr

/-- The bytes that a step gives, if it gives any, and the cursor behind it. -/
def step (c : Cursor) : Step → Except Fault (Option Bytes × Cursor)
  | .take n => do
    let (bytes, c) ← c.take n
    pure (some bytes, c)
  | .skip n => do pure (none, ← c.skip n)
  | .seek position => do pure (none, ← c.seek position)
  | .rest => pure (some c.rest, c)
  | .data => pure (some c.data, c)
  | .takeOrdered n order => do
    let (bytes, c) ← c.takeOrdered n order
    pure (some bytes, c)

/-- Runs a step; a failed step leaves the cursor where it was. -/
def perform (c : Cursor) (s : Step) : Except Fault (Option Bytes) × Cursor :=
  match c.step s with
  | .ok (bytes, c') => (.ok bytes, c')
  | .error fault => (.error fault, c)

/-- Runs steps one after another, and gives what each returned with the cursor behind it. -/
def performAll (c : Cursor) : List Step → List (Except Fault (Option Bytes) × Cursor)
  | [] => []
  | s :: rest => let done := c.perform s; done :: performAll done.2 rest

end Cursor

end WireLayout
