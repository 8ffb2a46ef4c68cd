/-!
# Bytes

Encoded data is an array of bytes. A machine word is written as the run of its base-256 digits, least significant first
(`Bytes.ofWord`) or most significant first (`Bytes.ofWordBig`), and read back from such a run (`Bytes.toWord`). A register of bits
is cut into bytes and put together from them by shifts (`Bytes.ofBits`, `Bytes.toBits`). `ByteOrder.arrange` turns a run into the
order a format asks for, and turns it back, because reversing twice changes nothing.
-/

namespace WireLayout

/-- Encoded data. -/
abbrev Bytes := Array UInt8

/-- Which end of a word comes first on the wire. -/
inductive ByteOrder where
  | little
  | big
  deriving DecidableEq, Repr

namespace ByteOrder

/-- Puts a run that is least significant byte first into this order; the same step undoes itself. -/
def arrange (order : ByteOrder) (run : List UInt8) : List UInt8 :=
  match order with
  | .little => run
  | .big => run.reverse

@[simp]
theorem arrange_arrange (order : ByteOrder) (run : List UInt8) : order.arrange (order.arrange run) = run := by
  cases order <;> simp [arrange]

@[simp]
theorem length_arrange (order : ByteOrder) (run : List UInt8) : (order.arrange run).length = run.length := by
  cases order <;> simp [arrange]

end ByteOrder

namespace Bytes

/-- The `width` low base-256 digits of a number, least significant first. -/
def ofWord : (width : Nat) → Nat → List UInt8
  | 0, _ => []
  | width + 1, n => UInt8.ofNat n :: ofWord width (n / 256)

/-- How many words of a width there are: 256 to the power of the width. -/
def wordCount (width : Nat) : Nat := Nat.pow 256 width

/-- The `width` low base-256 digits of a number, most significant first. -/
def ofWordBig : (width : Nat) → Nat → List UInt8
  | 0, _ => []
  | width + 1, n => UInt8.ofNat (n / wordCount width) :: ofWordBig width n

/-- The number whose base-256 digits these are, least significant first. -/
def toWord : List UInt8 → Nat
  | [] => 0
  | b :: rest => b.toNat + 256 * toWord rest

/-- The bytes of a register, least significant first: byte `i` is the slice of eight bits from bit `8 * i` on. -/
def ofBits (width : Nat) (bits : BitVec (8 * width)) : List UInt8 :=
  (List.range width).map fun i => UInt8.ofBitVec (bits.extractLsb' (8 * i) 8)

/-- The register of `w` bits with these bytes, least significant first: from the last byte on, what is there moves up by a byte. -/
def toBits (w : Nat) (run : List UInt8) : BitVec w :=
  run.foldr (fun b bits => bits <<< 8 ||| b.toBitVec.setWidth w) 0

/-- The runs of `width` bytes that make up a block; what is left over at its end is dropped. -/
def chunks (width : Nat) (block : Bytes) : List (List UInt8) :=
  (List.range (block.size / width)).map fun i => (block.extract (i * width) (i * width + width)).toList

/-- Each further byte multiplies the number of words by 256. -/
theorem wordCount_succ (width : Nat) : wordCount (width + 1) = 256 * wordCount width := Nat.mul_comm _ _

@[simp]
theorem length_ofWord (width n : Nat) : (ofWord width n).length = width := by
  induction width generalizing n with
  | zero => rfl
  | succ width ih => simp [ofWord, ih]

/-- A word keeps the number modulo its range. -/
theorem toWord_ofWord (width n : Nat) : toWord (ofWord width n) = n % wordCount width := by
  induction width generalizing n with
  | zero => exact (Nat.mod_one n).symm
  | succ width ih =>
    have low : (UInt8.ofNat n).toNat = n % 256 := UInt8.toNat_ofNat'
    rw [ofWord, toWord, ih, low, wordCount_succ, Nat.mod_mul]

/-- Every run of bytes is the word of the number it stands for. -/
theorem ofWord_toWord (run : List UInt8) : ofWord run.length (toWord run) = run := by
  induction run with
  | nil => rfl
  | cons b rest ih =>
    have hb : b.toNat < 256 := b.toNat_lt
    have hdiv : (b.toNat + 256 * toWord rest) / 256 = toWord rest := by omega
    have hmod : UInt8.ofNat (b.toNat + 256 * toWord rest) = b := by
      apply UInt8.toNat_inj.mp
      simp only [UInt8.toNat_ofNat']
      omega
    simp [ofWord, toWord, hdiv, hmod, ih]

/-- A number read from bytes lies in the range of its width. -/
theorem toWord_lt (run : List UInt8) : toWord run < wordCount run.length := by
  induction run with
  | nil => exact Nat.one_pos
  | cons b rest ih =>
    have hb : b.toNat < 256 := b.toNat_lt
    rw [toWord, List.length_cons, wordCount_succ]
    omega

/-- Appends a word that is given most significant byte first, in the given order. -/
def appendOrdered (out word : Bytes) (order : ByteOrder) : Bytes :=
  out ++ order.arrange word.toList.reverse

/-- `n` zero bytes. -/
def zeros (n : Nat) : Bytes := Array.replicate n 0

/-- Overwrites the bytes from `offset` on with the given ones; what would fall behind the end is dropped. -/
def overwrite (target : Bytes) (offset : Nat) : List UInt8 → Bytes
  | [] => target
  | b :: rest => overwrite (target.setIfInBounds offset b) (offset + 1) rest

/-- Overwrites the bytes from `offset` on, growing the target with zeros where it is too short. -/
def patch (target : Bytes) (offset : Nat) (content : Bytes) : Bytes :=
  overwrite (target ++ zeros (offset + content.size - target.size)) offset content.toList

/-- Keeps the first `size` bytes, and fills up with zeros to that size. -/
def fit (content : Bytes) (size : Nat) : Bytes :=
  content.extract 0 size ++ zeros (size - content.size)

@[simp]
theorem size_overwrite (target : Bytes) (offset : Nat) (content : List UInt8) :
    (overwrite target offset content).size = target.size := by
  induction content generalizing target offset with
  | nil => rfl
  | cons b rest ih => simp [overwrite, ih]

/-- Patching inside the target keeps its size; patching past its end extends it just so far. -/
theorem size_patch (target : Bytes) (offset : Nat) (content : Bytes) :
    (patch target offset content).size = max target.size (offset + content.size) := by
  simp only [patch, size_overwrite, Array.size_append, zeros, Array.size_replicate]
  omega

/-- A fitted region has exactly the size asked for. -/
@[simp]
theorem size_fit (content : Bytes) (size : Nat) : (fit content size).size = size := by
  simp only [fit, Array.size_append, Array.size_extract, zeros, Array.size_replicate]
  omega

end Bytes

end WireLayout
