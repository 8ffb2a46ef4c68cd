import WireLayout.Number

/-!
# Blocks against single numbers

A block of numbers has encoders and decoders of its own. They narrow and widen registers of bits and cut them into bytes, where a
number by itself is a residue and its base-256 digits. Both are the same: the bytes of a register are the digits of the number in it
(`Bytes.ofBits_eq_ofWord`, `Bytes.toNat_toBits`), and narrowing a register is taking a residue. So what a block appends for its values
is what they append one by one (`Number.encodeBlock_eq_packEach`), and the values of a block are those of its runs of bytes
(`Number.decodeBlock_eq`).
-/

namespace WireLayout

namespace Bytes

/-! ## Digits and registers -/

/-- The last digit of a word is what is left when the others are divided off. -/
theorem ofWord_succ_last (width n : Nat) : ofWord (width + 1) n = ofWord width n ++ [UInt8.ofNat (n / wordCount width)] := by
  induction width generalizing n with
  | zero => exact congrArg (fun digit => [UInt8.ofNat digit]) (Nat.div_one n).symm
  | succ width ih =>
    rw [ofWord, ih, Nat.div_div_eq_div_mul, ← wordCount_succ]
    rfl

/-- Most significant digit first is least significant digit first, the other way around. -/
theorem reverse_ofWordBig (width n : Nat) : (ofWordBig width n).reverse = ofWord width n := by
  induction width with
  | zero => rfl
  | succ width ih => rw [ofWordBig, List.reverse_cons, ih, ofWord_succ_last]

theorem ofWord_eq_map (width n : Nat) : ofWord width n = (List.range width).map fun i => UInt8.ofNat (n / wordCount i) := by
  induction width with
  | zero => rfl
  | succ width ih => rw [ofWord_succ_last, ih, List.range_succ, List.map_append, List.map_singleton]

/-- A word depends on the number modulo its range alone. -/
theorem ofWord_mod (width n : Nat) : ofWord width (n % wordCount width) = ofWord width n := by
  have whole := ofWord_toWord (ofWord width n)
  rwa [length_ofWord, toWord_ofWord] at whole

theorem wordCount_eq (width : Nat) : wordCount width = Nat.pow 2 (8 * width) := (Nat.pow_mul 2 8 width).symm

/-- The bytes of a register are the digits of the number in it. -/
theorem ofBits_eq_ofWord (width : Nat) (bits : BitVec (8 * width)) : ofBits width bits = ofWord width bits.toNat := by
  rw [ofWord_eq_map]
  refine List.map_congr_left ?_
  intro i _
  have digit : bits.toNat >>> (8 * i) = bits.toNat / wordCount i := by
    rw [Nat.shiftRight_eq_div_pow, wordCount_eq]
    rfl
  apply UInt8.toNat_inj.mp
  rw [UInt8.toNat_ofBitVec, BitVec.extractLsb'_toNat, digit, UInt8.toNat_ofNat']

/-- A register with room for all of the bytes holds the number whose digits they are. -/
theorem toNat_toBits {w : Nat} {run : List UInt8} (room : 8 * run.length ≤ w) : (toBits w run).toNat = toWord run := by
  induction run with
  | nil => exact BitVec.toNat_zero
  | cons b rest ih =>
    have fits : toWord (b :: rest) < Nat.pow 2 w :=
      calc toWord (b :: rest)
        _ < wordCount (b :: rest).length := toWord_lt _
        _ = Nat.pow 2 (8 * (b :: rest).length) := wordCount_eq _
        _ ≤ Nat.pow 2 w := Nat.pow_le_pow_right (by omega) room
    rw [List.length_cons] at room
    rw [toWord] at fits
    have shifted : toWord rest <<< 8 = 256 * toWord rest := (Nat.shiftLeft_eq _ _).trans (Nat.mul_comm _ _)
    have above : (toBits w rest <<< 8).toNat = toWord rest <<< 8 := by
      rw [BitVec.toNat_shiftLeft, ih (by omega), shifted]
      exact Nat.mod_eq_of_lt (Nat.lt_of_le_of_lt (Nat.le_add_left _ _) fits)
    have below : (b.toBitVec.setWidth w).toNat = b.toNat := by
      rw [BitVec.toNat_setWidth]
      exact Nat.mod_eq_of_lt (Nat.lt_of_le_of_lt (Nat.le_add_right _ _) fits)
    -- The eight bits below the ones that moved up are free, so putting the byte there is adding it.
    calc (toBits w (b :: rest)).toNat
      _ = (toBits w rest <<< 8 ||| b.toBitVec.setWidth w).toNat := rfl
      _ = toWord rest <<< 8 ||| b.toNat := by rw [BitVec.toNat_or, above, below]
      _ = toWord rest <<< 8 + b.toNat := (Nat.shiftLeft_add_eq_or_of_lt b.toBitVec.isLt _).symm
      _ = toWord (b :: rest) := by rw [shifted, toWord, Nat.add_comm]

/-! ## Narrowing and widening -/

/-- A register of eight bits is a byte. -/
theorem ofBits_byte (bits : BitVec 8) : ofBits 1 bits = [UInt8.ofBitVec bits] :=
  congrArg (fun low => [UInt8.ofBitVec low]) BitVec.extractLsb'_eq_self

theorem toBits_byte (b : UInt8) : toBits 8 [b] = b.toBitVec := by
  apply BitVec.eq_of_toNat_eq
  exact toNat_toBits (Nat.le_refl (8 * [b].length))

/-- A signed register that is narrowed keeps the residue of its number. -/
theorem ofBits_signExtend (width : Nat) (n : Int64) :
    ofBits width (n.toBitVec.signExtend (8 * width)) = ofWord width (n.toInt % wordCount width).toNat := by
  rw [ofBits_eq_ofWord, wordCount_eq]
  exact congrArg (ofWord width) (BitVec.toNat_ofInt n.toInt)

/-- So does one whose high bits are cut off. -/
theorem ofBits_setWidth {width : Nat} (narrow : 8 * width ≤ 64) (n : Int64) :
    ofBits width (n.toBitVec.setWidth (8 * width)) = ofWord width (n.toInt % wordCount width).toNat := by
  rw [← BitVec.signExtend_eq_setWidth_of_le n.toBitVec narrow, ofBits_signExtend]

/-- Widening a register with its sign gives the representative of its number that is nearest to zero. -/
theorem signExtend_toBits {w : Nat} {run : List UInt8} (room : 8 * run.length = w) :
    Int64.ofBitVec ((toBits w run).signExtend 64) = Int64.ofInt (Int.bmod (toWord run) (wordCount run.length)) := by
  have number : (toBits w run).toInt = Int.bmod (toWord run) (wordCount run.length) := by
    rw [BitVec.toInt_eq_toNat_bmod, toNat_toBits (Nat.le_of_eq room), wordCount_eq, room]
    rfl
  rw [← number]
  rfl

/-- A register without a sign keeps its number. -/
theorem toInt64_eq (u : UInt64) : u.toInt64 = Int64.ofInt u.toNat := by
  apply Int64.toBitVec_inj.mp
  rw [Int64.toBitVec_ofInt, BitVec.ofInt_natCast]
  exact ((BitVec.ofNat_toNat 64 u.toBitVec).trans (BitVec.setWidth_eq _)).symm

/-! ## Runs of bytes -/

/-- Appending a list of bytes is appending the array of them. -/
theorem append_list (out : Bytes) (run : List UInt8) : out ++ run = out ++ run.toArray :=
  Array.ext' (by simp)

theorem length_of_mem_chunks {width : Nat} {block : Bytes} {run : List UInt8} (h : run ∈ chunks width block) :
    run.length = width := by
  obtain ⟨i, hi, rfl⟩ := List.mem_map.mp h
  have inside : (i + 1) * width ≤ block.size :=
    Nat.le_trans (Nat.mul_le_mul_right width (List.mem_range.mp hi)) (Nat.div_mul_le_self _ _)
  rw [Nat.succ_mul] at inside
  rw [Array.length_toList, Array.size_extract]
  omega

/-- The runs of a single byte are the bytes. -/
theorem chunks_one (block : Bytes) : chunks 1 block = block.toList.map fun b => [b] := by
  apply List.ext_getElem
  · simp [chunks]
  · intro i hi hi'
    rw [List.length_map, Array.length_toList] at hi'
    have first : (block.toList.drop i).take 1 = [block[i]] := by
      rw [List.drop_eq_getElem_cons (Array.length_toList ▸ hi')]
      rfl
    simpa [chunks] using first

end Bytes

namespace Number

variable {kind : Number} {order : ByteOrder}

theorem size_pos (kind : Number) : 0 < kind.size := by
  cases kind <;> decide

/-! ## Writing -/

/-- A number appends its bytes. -/
theorem pack_eq (kind : Number) (order : ByteOrder) (v : Value) (out : Bytes) :
    kind.pack order v out = (kind.encode order v).map fun run => out ++ run.toArray := by
  rw [pack, encode]
  cases kind.wordOf v with
  | error fault => rfl
  | ok word =>
    have ordered : out.appendOrdered (Bytes.ofWordBig kind.size word).toArray order =
        out ++ (order.arrange (Bytes.ofWord kind.size word)).toArray := by
      rw [Bytes.appendOrdered, List.toList_toArray, Bytes.reverse_ofWordBig, Bytes.append_list]
    have pushed : out.push (UInt8.ofNat word) = out ++ (order.arrange (Bytes.ofWord 1 word)).toArray := by
      cases order <;> rfl
    cases kind with
    | int8 | uint8 => exact congrArg Except.ok pushed
    | int16 | uint16 | int32 | uint32 | float32 | float64 => exact congrArg Except.ok ordered

/-- An integer kind takes a value for an integer, and the residue of that is its word. -/
theorem wordOf_integer (whole : kind.isFloat = false) (v : Value) :
    kind.wordOf v = (kind.integerOf v).map fun n : Int64 => (n.toInt % kind.range).toNat := by
  cases kind with
  | float32 | float64 => cases whole
  | int8 | uint8 | int16 | uint16 | int32 | uint32 =>
    simp only [wordOf]
    cases integerOf _ v <;> rfl

section

variable {α : Type} {scalar : Value → Except Fault α} {word : α → Nat}

/-- Bytes that are the digits of the words are appended, put in order, as the numbers are. -/
theorem encodeAll_eq {bytes : α → List UInt8} (words : ∀ v, kind.wordOf v = (scalar v).map word)
    (digits : ∀ a, bytes a = Bytes.ofWord kind.size (word a)) (values : List Value) (out : Bytes) :
    encodeAll order (fun v => return bytes (← scalar v)) values out = kind.packEach order values out := by
  induction values generalizing out with
  | nil => rfl
  | cons v rest ih =>
    rw [encodeAll, packEach, pack_eq, encode, words v]
    cases scalar v with
    | error fault => rfl
    | ok a =>
      show encodeAll order _ rest (out ++ order.arrange (bytes a)) = _
      rw [digits a, Bytes.append_list]
      exact ih _

/-- A byte that is the only digit of the word needs no order. -/
theorem pushAll_eq {byte : α → UInt8} (words : ∀ v, kind.wordOf v = (scalar v).map word)
    (digits : ∀ a, [byte a] = Bytes.ofWord kind.size (word a)) (values : List Value) (out : Bytes) :
    pushAll (fun v => return byte (← scalar v)) values out = kind.packEach order values out := by
  induction values generalizing out with
  | nil => rfl
  | cons v rest ih =>
    rw [pushAll, packEach, pack_eq, encode, words v]
    cases scalar v with
    | error fault => rfl
    | ok a =>
      have single : order.arrange (Bytes.ofWord kind.size (word a)) = [byte a] := by
        rw [← digits a]
        cases order <;> rfl
      show pushAll _ rest (out.push (byte a)) = kind.packEach order rest (out ++ (order.arrange _).toArray)
      rw [single]
      exact ih _

end

/-- A block appends what its values append one by one. -/
theorem encodeBlock_eq_packEach (kind : Number) (order : ByteOrder) (values : List Value) (out : Bytes) :
    kind.encodeBlock order values out = kind.packEach order values out := by
  cases kind with
  | int8 =>
    refine pushAll_eq (wordOf_integer rfl) ?_ values out
    intro n
    exact (Bytes.ofBits_byte _).symm.trans (Bytes.ofBits_signExtend 1 n)
  | uint8 =>
    refine pushAll_eq (wordOf_integer rfl) ?_ values out
    intro n
    exact (Bytes.ofBits_byte _).symm.trans (Bytes.ofBits_setWidth (Nat.le_add_right 8 56) n)
  | int16 => exact encodeAll_eq (wordOf_integer rfl) (Bytes.ofBits_signExtend 2) values out
  | uint16 => exact encodeAll_eq (wordOf_integer rfl) (@Bytes.ofBits_setWidth 2 (by decide)) values out
  | int32 => exact encodeAll_eq (wordOf_integer rfl) (Bytes.ofBits_signExtend 4) values out
  | uint32 => exact encodeAll_eq (wordOf_integer rfl) (@Bytes.ofBits_setWidth 4 (by decide)) values out
  | float32 =>
    have words : ∀ v, wordOf .float32 v = (floatOf .float32 v).map fun x => FloatFormat.single.encode (.ofFloat x) := by
      intro v
      simp only [wordOf]
      cases floatOf .float32 v <;> rfl
    refine encodeAll_eq words ?_ values out
    intro x
    exact (Bytes.ofBits_eq_ofWord 4 _).trans (Bytes.ofWord_mod 4 _)
  | float64 =>
    have words : ∀ v, wordOf .float64 v = (floatOf .float64 v).map fun x => x.toBits.toNat := by
      intro v
      simp only [wordOf]
      cases floatOf .float64 v <;> rfl
    refine encodeAll_eq words ?_ values out
    intro x
    exact Bytes.ofBits_eq_ofWord 8 _

/-- What a block writes: its values one by one, and zeros for those that are missing. -/
theorem packBlock_eq (kind : Number) (order : ByteOrder) (values : List Value) (count : Nat) (out : Bytes) :
    kind.packBlock order values count out =
      (kind.packEach order (values.take count) out).map fun out' => out' ++ Bytes.zeros (out.size + kind.size * count - out'.size) := by
  simp only [packBlock, encodeBlock_eq_packEach]
  cases kind.packEach order (values.take count) out <;> rfl

/-! ## Reading -/

/-- Decoders that agree with a kind on runs of its width give the values of the runs. -/
theorem decodeAll_eq {width : Nat} {decode : List UInt8 → Value}
    (h : ∀ raw, raw.length = width → decode raw = kind.ofWord (Bytes.toWord raw)) (block : Bytes) :
    decodeAll width order block decode = (Bytes.chunks width block).map (kind.decode order) := by
  refine List.map_congr_left ?_
  intro run hrun
  exact h _ ((ByteOrder.length_arrange _ _).trans (Bytes.length_of_mem_chunks hrun))

theorem decodeBytes_eq {decode : UInt8 → Value} (h : ∀ b, decode b = kind.ofWord (Bytes.toWord [b])) (block : Bytes) :
    block.toList.map decode = (Bytes.chunks 1 block).map (kind.decode order) := by
  rw [Bytes.chunks_one, List.map_map]
  refine List.map_congr_left ?_
  intro b _
  rw [h b]
  cases order <;> rfl

theorem ofWord_signed (signed : kind.isSigned = true) (word : Nat) :
    kind.ofWord word = .int (Int64.ofInt (Int.bmod word kind.range)) := by
  cases kind with
  | int8 | int16 | int32 => simp [ofWord, isSigned]
  | uint8 | uint16 | uint32 | float32 | float64 => cases signed

theorem ofWord_unsigned (whole : kind.isFloat = false) (unsigned : kind.isSigned = false) (word : Nat) :
    kind.ofWord word = .int (Int64.ofInt word) := by
  cases kind with
  | uint8 | uint16 | uint32 => simp [ofWord, isSigned]
  | float32 | float64 => cases whole
  | int8 | int16 | int32 => cases unsigned

/-- The values of a block are those of its runs of bytes. -/
theorem decodeBlock_eq (kind : Number) (order : ByteOrder) (block : Bytes) :
    kind.decodeBlock order block = (Bytes.chunks kind.size block).map (kind.decode order) := by
  cases kind with
  | int8 =>
    simp only [decodeBlock]
    refine decodeBytes_eq ?_ block
    intro b
    have widened := @Bytes.signExtend_toBits 8 [b] rfl
    rw [Bytes.toBits_byte] at widened
    rw [ofWord_signed rfl]
    exact congrArg Value.int widened
  | uint8 =>
    simp only [decodeBlock]
    refine decodeBytes_eq ?_ block
    intro b
    rw [ofWord_unsigned rfl rfl, Bytes.toInt64_eq]
    rfl
  | int16 | int32 =>
    simp only [decodeBlock]
    refine decodeAll_eq ?_ block
    intro raw width
    have widened := Bytes.signExtend_toBits (congrArg (8 * ·) width)
    rw [width] at widened
    rw [ofWord_signed rfl]
    exact congrArg Value.int widened
  | uint16 | uint32 =>
    simp only [decodeBlock]
    refine decodeAll_eq ?_ block
    intro raw width
    rw [ofWord_unsigned rfl rfl, Bytes.toInt64_eq, ← Bytes.toNat_toBits (Nat.le_of_eq (congrArg (8 * ·) width))]
    rfl
  | float32 =>
    simp only [decodeBlock]
    refine decodeAll_eq ?_ block
    intro raw width
    exact congrArg (fun word => Value.float (FloatFormat.single.decode word).toFloat)
      (Bytes.toNat_toBits (Nat.le_of_eq (congrArg (8 * ·) width)))
  | float64 =>
    simp only [decodeBlock]
    refine decodeAll_eq ?_ block
    intro raw width
    have number := Bytes.toNat_toBits (Nat.le_of_eq (congrArg (8 * ·) width))
    have bits : UInt64.ofBitVec (Bytes.toBits 64 raw) = UInt64.ofNat (Bytes.toWord raw) := by
      rw [← number]
      exact congrArg UInt64.ofBitVec ((BitVec.ofNat_toNat 64 _).trans (BitVec.setWidth_eq _)).symm
    exact congrArg (fun bits => Value.float (Float.ofBits bits)) bits

end Number

end WireLayout
