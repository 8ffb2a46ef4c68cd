import WireLayout.Proofs.Output

/-!
# Integer kinds

An integer kind stores the integers of its range and no others (`Number.Stores`): an integer that it stores is read back as it is
(`Stores.exists_run`), and every run of bytes of its width is read as an integer that it stores and that is written as the same bytes
(`exists_stores_of_run`). Counts in front are such integers.
-/

namespace WireLayout

namespace Number

/-- The least integer of a kind. -/
def least (kind : Number) : Int := if kind.isSigned then -(kind.range / 2 : Int) else 0

/-- An integer kind has the integer in its range. -/
structure Stores (kind : Number) (n : Int64) : Prop where
  integral : kind.isFloat = false
  lower : kind.least ≤ n.toInt
  upper : n.toInt ≤ kind.maxCount

variable {kind : Number}

/-- The range of an integer kind is even, and far below that of 64 bits. -/
theorem range_of_integral (h : kind.isFloat = false) : ∃ half : Nat, kind.range = 2 * half ∧ 0 < half ∧ half ≤ 0x80000000 := by
  cases kind with
  | int8 | uint8 => exact ⟨0x80, rfl, by decide, by decide⟩
  | int16 | uint16 => exact ⟨0x8000, rfl, by decide, by decide⟩
  | int32 | uint32 => exact ⟨0x80000000, rfl, by decide, by decide⟩
  | float32 | float64 => cases h

theorem maxCount_of_integral (h : kind.isFloat = false) :
    kind.maxCount = if kind.isSigned then kind.range / 2 - 1 else kind.range - 1 := by
  cases kind with
  | float32 | float64 => cases h
  | _ => rfl

theorem maxCount_lt (h : kind.isFloat = false) : kind.maxCount < 0x100000000 := by
  cases kind with
  | float32 | float64 => cases h
  | _ => decide

/-- An integer is written as its residue modulo the range. -/
theorem encode_int (h : kind.isFloat = false) (order : ByteOrder) (n : Int64) :
    kind.encode order (.int n) = .ok (order.arrange (Bytes.ofWord kind.size (n.toInt % kind.range).toNat)) := by
  cases kind with
  | float32 | float64 => cases h
  | _ => rfl

/-- The integer of a range that a word stands for. -/
def representative (kind : Number) (word : Nat) : Int := if kind.isSigned then Int.bmod word kind.range else word

theorem decode_int (h : kind.isFloat = false) (order : ByteOrder) (run : List UInt8) :
    kind.decode order run = .int (Int64.ofInt (kind.representative (Bytes.toWord (order.arrange run)))) := by
  cases kind with
  | float32 | float64 => cases h
  | _ => rfl

/-- A representative lies in the range of its kind. -/
theorem representative_bounds (h : kind.isFloat = false) {word : Nat} (hword : word < kind.range) :
    kind.least ≤ kind.representative word ∧ kind.representative word ≤ kind.maxCount := by
  obtain ⟨half, hrange, hpos, -⟩ := range_of_integral h
  rw [maxCount_of_integral h, representative, least]
  cases kind.isSigned with
  | false =>
    simp only [Bool.false_eq_true, if_false]
    omega
  | true =>
    have hlow := Int.le_bmod (x := word) (show 0 < kind.range by omega)
    have hhigh := Int.bmod_lt (x := word) (show 0 < kind.range by omega)
    simp only [if_true]
    omega

/-- The residue of a representative is the word that it stands for. -/
theorem representative_emod {word : Nat} (hword : word < kind.range) :
    (kind.representative word % kind.range).toNat = word := by
  have hself : ((word : Int) % kind.range).toNat = word := by
    rw [Int.emod_eq_of_lt (by omega) (by omega)]
    rfl
  rw [representative]
  split
  · rw [Int.bmod_emod, hself]
  · exact hself

/-- The representative of the residue of an integer in range is that integer. -/
theorem Stores.representative_emod {n : Int64} (h : kind.Stores n) :
    kind.representative (n.toInt % kind.range).toNat = n.toInt := by
  obtain ⟨half, hrange, hpos, -⟩ := range_of_integral h.integral
  have hlower := h.lower
  have hupper := h.upper
  rw [maxCount_of_integral h.integral] at hupper
  rw [least] at hlower
  have hresidue : (((n.toInt % kind.range).toNat : Nat) : Int) = n.toInt % kind.range :=
    Int.toNat_of_nonneg (Int.emod_nonneg _ (by omega))
  rw [representative, hresidue]
  cases hsigned : kind.isSigned with
  | false =>
    simp only [hsigned, Bool.false_eq_true, if_false] at hlower hupper ⊢
    exact Int.emod_eq_of_lt hlower (by omega)
  | true =>
    simp only [hsigned, if_true] at hlower hupper ⊢
    rw [Int.emod_bmod]
    exact Int.bmod_eq_of_le (by omega) (by omega)

/-- An integer that a kind stores has a run of bytes, and is read back from it. -/
theorem Stores.exists_run {n : Int64} (h : kind.Stores n) (order : ByteOrder) :
    ∃ run, kind.encode order (.int n) = .ok run ∧ run.length = kind.size ∧ kind.decode order run = .int n := by
  refine ⟨_, encode_int h.integral order n, by simp, ?_⟩
  have hlt : (n.toInt % kind.range).toNat < kind.range := by
    obtain ⟨half, hrange, hpos, -⟩ := range_of_integral h.integral
    have := Int.emod_lt_of_pos n.toInt (show (0 : Int) < kind.range by omega)
    omega
  have hword : Bytes.toWord (Bytes.ofWord kind.size (n.toInt % kind.range).toNat) = (n.toInt % kind.range).toNat := by
    rw [Bytes.toWord_ofWord]
    exact Nat.mod_eq_of_lt hlt
  rw [decode_int h.integral, ByteOrder.arrange_arrange, hword, h.representative_emod, Int64.ofInt_toInt]

/-- Every run of bytes of the width of an integer kind stands for an integer that the kind stores, and is what is written for it. -/
theorem exists_stores_of_run (h : kind.isFloat = false) (order : ByteOrder) {run : List UInt8} (hlength : run.length = kind.size) :
    ∃ n, kind.decode order run = .int n ∧ kind.Stores n ∧ kind.encode order (.int n) = .ok run := by
  have hword : Bytes.toWord (order.arrange run) < kind.range := by
    have hlt := Bytes.toWord_lt (order.arrange run)
    rw [ByteOrder.length_arrange, hlength] at hlt
    exact hlt
  obtain ⟨hlower, hupper⟩ := representative_bounds h hword
  have hmax := maxCount_lt h
  have hleast : -0x100000000 ≤ kind.least := by
    obtain ⟨half, hrange, -, hle⟩ := range_of_integral h
    rw [least]
    split <;> omega
  have htoInt : (Int64.ofInt (kind.representative (Bytes.toWord (order.arrange run)))).toInt =
      kind.representative (Bytes.toWord (order.arrange run)) := Int64.toInt_ofInt_of_le (by omega) (by omega)
  refine ⟨_, decode_int h order run, ⟨h, ?_, ?_⟩, ?_⟩
  · rw [htoInt]
    exact hlower
  · rw [htoInt]
    exact hupper
  · rw [encode_int h, htoInt, representative_emod hword, ← hlength, ← ByteOrder.length_arrange order run,
      Bytes.ofWord_toWord, ByteOrder.arrange_arrange]

/-! ## Counts -/

/-- An integer kind stores every count that it admits. -/
theorem stores_count (h : kind.isFloat = false) {n : Nat} (hn : n ≤ kind.maxCount) : kind.Stores (Int64.ofNat n) := by
  have hmax := maxCount_lt h
  have htoInt : (Int64.ofNat n).toInt = n := Int64.toInt_ofNat_of_lt (by omega)
  refine ⟨h, ?_, ?_⟩
  · rw [htoInt, least]
    split <;> omega
  · rw [htoInt]
    omega

theorem count?_ofCount {n : Nat} (hn : n < 0x100000000) : (Value.ofCount n).count? = some n := by
  have htoInt : (Int64.ofNat n).toInt = n := Int64.toInt_ofNat_of_lt (by omega)
  simp [Value.ofCount, Value.count?, htoInt]

/-- An integer that a kind stores and that is a count is one that the kind admits. -/
theorem Stores.of_count {m : Int64} (h : kind.Stores m) {n : Nat} (hn : (Value.int m).count? = some n) :
    n ≤ kind.maxCount ∧ Value.ofCount n = .int m := by
  simp only [Value.count?] at hn
  split at hn
  · next hnonneg =>
    obtain rfl := Option.some.inj hn
    have hupper := h.upper
    have hm : Int64.ofNat m.toInt.toNat = m := by
      rw [← Int64.ofInt_eq_ofNat, Int.toNat_of_nonneg hnonneg, Int64.ofInt_toInt]
    refine ⟨by omega, ?_⟩
    rw [Value.ofCount, hm]
  · cases hn

/-- A count that a kind admits is written as the number that it is. -/
theorem packCount_eq {n : Nat} (hn : n ≤ kind.maxCount) (order : ByteOrder) (out : Bytes) :
    kind.packCount order n out = kind.pack order (.ofCount n) out := by
  rw [packCount, if_neg (Nat.not_lt_of_le hn)]

end Number

end WireLayout
