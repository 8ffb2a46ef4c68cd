import WireLayout.Cursor
import WireLayout.Value

/-!
# Numbers

The eight fixed-width kinds of numbers. A kind reads and writes words of its width: the word of an integer is its residue modulo
the width's range (`Number.wordOf`), so packing wraps, and `Number.ofWord` gives back the representative that lies in the kind's
range. Counts are stored exactly or not at all (`Number.packCount`).

A run of numbers can also be moved as one block (`Number.packBlock`, `Number.unpackBlock`). A block has encoders and decoders of its
own, one for each kind, which narrow and widen registers and start from the bytes that come least significant first, where a number
by itself starts from those that come most significant first. `Number.movesBlocks` says under which byte order a block is worth while.
-/

namespace WireLayout

/-- The numeric kinds. -/
inductive Number where
  | int8
  | uint8
  | int16
  | uint16
  | int32
  | uint32
  | float32
  | float64
  deriving DecidableEq, Repr

namespace Number

/-- Every kind, in the order in which a registry lists them. -/
def all : List Number := [int8, uint8, int16, uint16, int32, uint32, float32, float64]

/-- The canonical name. -/
def name : Number → String
  | int8 => "int8"
  | uint8 => "uint8"
  | int16 => "int16"
  | uint16 => "uint16"
  | int32 => "int32"
  | uint32 => "uint32"
  | float32 => "float32"
  | float64 => "float64"

/-- The other names. -/
def aliases : Number → List String
  | int8 => ["shortint"]
  | uint8 => ["byte"]
  | int16 => ["smallint"]
  | uint16 => ["word"]
  | int32 => ["longint"]
  | uint32 => ["longword"]
  | float32 => ["single"]
  | float64 => ["double"]

/-- The width in bytes. -/
def size : Number → Nat
  | int8 | uint8 => 1
  | int16 | uint16 => 2
  | int32 | uint32 | float32 => 4
  | float64 => 8

/-- Whether values are floats. -/
def isFloat : Number → Bool
  | float32 | float64 => true
  | _ => false

/-- Whether values are integers of either sign. -/
def isSigned : Number → Bool
  | int8 | int16 | int32 => true
  | _ => false

/-- The number of different words. -/
def range (kind : Number) : Nat := Bytes.wordCount kind.size

/-- The largest count that a prefix of this kind stores exactly: the largest integer of the kind, or the last one before a float
format skips integers. -/
def maxCount : Number → Nat
  | float32 => FloatFormat.single.significandRange
  | float64 => FloatFormat.double.significandRange
  | kind => if kind.isSigned then kind.range / 2 - 1 else kind.range - 1

/-- The text of a kind as a schema. -/
def text (kind : Number) : String := "'" ++ kind.name ++ "'"

/-- The integer that an integer kind packs for a value: null and what is no number are zero. -/
def integerOf (kind : Number) (v : Value) : Except Fault Int64 :=
  if v.isNull || v.isNaN then .ok 0
  else
    match v.integer? with
    | some n => .ok n
    | none => .error (.typeMismatch kind.name v.typeName)

/-- The float that a float kind packs for a value: null is zero. -/
def floatOf (kind : Number) (v : Value) : Except Fault Float :=
  if v.isNull then .ok 0.0
  else
    match v.float? with
    | some x => .ok x
    | none => .error (.typeMismatch kind.name v.typeName)

/-- The word that stands for a value. -/
def wordOf (kind : Number) (v : Value) : Except Fault Nat :=
  match kind with
  | .float32 => do
    let x ← kind.floatOf v
    pure (FloatFormat.single.encode (FloatDatum.ofFloat x))
  | .float64 => do
    let x ← kind.floatOf v
    pure x.toBits.toNat
  | _ => do
    let n ← kind.integerOf v
    pure (n.toInt % kind.range).toNat

/-- The value that a word stands for. -/
def ofWord (kind : Number) (word : Nat) : Value :=
  match kind with
  | .float32 => .float (FloatFormat.single.decode word).toFloat
  | .float64 => .float (Float.ofBits (UInt64.ofNat word))
  | _ => .int (Int64.ofInt (if kind.isSigned then Int.bmod word kind.range else word))

/-- The bytes of a value, as they are on the wire. -/
def encode (kind : Number) (order : ByteOrder) (v : Value) : Except Fault (List UInt8) := do
  let word ← kind.wordOf v
  pure (order.arrange (Bytes.ofWord kind.size word))

/-- The value of a run of bytes. -/
def decode (kind : Number) (order : ByteOrder) (run : List UInt8) : Value :=
  kind.ofWord (Bytes.toWord (order.arrange run))

/-- Reads one number. -/
def unpack (kind : Number) (order : ByteOrder) (c : Cursor) : Except Fault (Value × Cursor) := do
  let (raw, c) ← c.take kind.size
  pure (kind.decode order raw.toList, c)

/-- Appends one number: a single byte as it is, a wider word from its most significant byte on, put in order. -/
def pack (kind : Number) (order : ByteOrder) (v : Value) (out : Bytes) : Except Fault Bytes := do
  let word ← kind.wordOf v
  match kind with
  | .int8 | .uint8 => pure (out.push (UInt8.ofNat word))
  | _ => pure (out.appendOrdered (Bytes.ofWordBig kind.size word).toArray order)

/-- Appends a count; one that the kind cannot store exactly is refused. -/
def packCount (kind : Number) (order : ByteOrder) (count : Nat) (out : Bytes) : Except Fault Bytes :=
  if kind.maxCount < count then .error (.countOverflow count kind.name kind.maxCount)
  else kind.pack order (.ofCount count) out

/-- Whether a run of numbers is moved as one block: when their bytes are in memory order already. -/
def movesBlocks (kind : Number) (order : ByteOrder) : Bool :=
  order == .little || kind.size == 1

/-- Reads `count` numbers one after another; `done` holds those read so far, last first. -/
def unpackEach (kind : Number) (order : ByteOrder) : Nat → List Value → Cursor → Except Fault (List Value × Cursor)
  | 0, done, c => .ok (done.reverse, c)
  | count + 1, done, c =>
    match kind.unpack order c with
    | .ok (v, c) => unpackEach kind order count (v :: done) c
    | .error fault => .error fault

/-- Appends numbers one after another. -/
def packEach (kind : Number) (order : ByteOrder) : List Value → Bytes → Except Fault Bytes
  | [], out => .ok out
  | v :: rest, out =>
    match kind.pack order v out with
    | .ok out => packEach kind order rest out
    | .error fault => .error fault

/-! ## Blocks -/

/-- The values of the runs of `width` bytes in a block, each put in order for `decode`. -/
def decodeAll (width : Nat) (order : ByteOrder) (block : Bytes) (decode : List UInt8 → Value) : List Value :=
  (Bytes.chunks width block).map fun run => decode (order.arrange run)

/-- The values of a block. -/
def decodeBlock (kind : Number) (order : ByteOrder) (block : Bytes) : List Value :=
  match kind with
  | .int8 => block.toList.map fun b => .int b.toInt8.toInt64
  | .uint8 => block.toList.map fun b => .int b.toUInt64.toInt64
  | .int16 => decodeAll 2 order block fun raw => .int (Int16.ofBitVec (Bytes.toBits 16 raw)).toInt64
  | .uint16 => decodeAll 2 order block fun raw => .int (UInt16.ofBitVec (Bytes.toBits 16 raw)).toUInt64.toInt64
  | .int32 => decodeAll 4 order block fun raw => .int (Int32.ofBitVec (Bytes.toBits 32 raw)).toInt64
  | .uint32 => decodeAll 4 order block fun raw => .int (UInt32.ofBitVec (Bytes.toBits 32 raw)).toUInt64.toInt64
  | .float32 => decodeAll 4 order block fun raw => .ofSingleBits (UInt32.ofBitVec (Bytes.toBits 32 raw))
  | .float64 => decodeAll 8 order block fun raw => .float (Float.ofBits (UInt64.ofBitVec (Bytes.toBits 64 raw)))

/-- Reads `count` numbers as one block. -/
def unpackBlock (kind : Number) (order : ByteOrder) (count : Nat) (c : Cursor) : Except Fault (List Value × Cursor) := do
  let (block, c) ← c.take (kind.size * count)
  pure (kind.decodeBlock order block, c)

/-- Appends the byte that `encode` gives for each value. -/
def pushAll (encode : Value → Except Fault UInt8) : List Value → Bytes → Except Fault Bytes
  | [], out => .ok out
  | v :: rest, out =>
    match encode v with
    | .ok b => pushAll encode rest (out.push b)
    | .error fault => .error fault

/-- Appends the bytes that `encode` gives for each value, least significant first, put in order. -/
def encodeAll (order : ByteOrder) (encode : Value → Except Fault (List UInt8)) : List Value → Bytes → Except Fault Bytes
  | [], out => .ok out
  | v :: rest, out =>
    match encode v with
    | .ok raw => encodeAll order encode rest (out ++ order.arrange raw)
    | .error fault => .error fault

/-- Appends the values of a block. -/
def encodeBlock (kind : Number) (order : ByteOrder) : List Value → Bytes → Except Fault Bytes :=
  match kind with
  | .int8 => pushAll fun v => return (← int8.integerOf v).toInt8.toUInt8
  | .uint8 => pushAll fun v => return (← uint8.integerOf v).toUInt64.toUInt8
  | .int16 => encodeAll order fun v => return Bytes.ofBits 2 (← int16.integerOf v).toInt16.toBitVec
  | .uint16 => encodeAll order fun v => return Bytes.ofBits 2 (← uint16.integerOf v).toUInt64.toUInt16.toBitVec
  | .int32 => encodeAll order fun v => return Bytes.ofBits 4 (← int32.integerOf v).toInt32.toBitVec
  | .uint32 => encodeAll order fun v => return Bytes.ofBits 4 (← uint32.integerOf v).toUInt64.toUInt32.toBitVec
  | .float32 => encodeAll order fun v =>
    return Bytes.ofBits 4 (BitVec.ofNat 32 (FloatFormat.single.encode (.ofFloat (← float32.floatOf v))))
  | .float64 => encodeAll order fun v => return Bytes.ofBits 8 (← float64.floatOf v).toBits.toBitVec

/-- Appends exactly `count` numbers as one block: missing ones are zero bytes, further ones are dropped. -/
def packBlock (kind : Number) (order : ByteOrder) (values : List Value) (count : Nat) (out : Bytes) : Except Fault Bytes := do
  let start := out.size
  let out ← kind.encodeBlock order (values.take count) out
  pure (out ++ Bytes.zeros (start + kind.size * count - out.size))

end Number

end WireLayout
