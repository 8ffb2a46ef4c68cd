import Mathlib
import WireLayout.Proofs.LinkedCount

/-!
# Integers as residues

An integer kind of `w` bits stores integers modulo `2 ^ w`. The bytes of an integer are the digits of its residue (`Number.digits`), in
one order or in the other, so two integers are written alike just when they have the same residue (`digits_eq_iff`). A kind has
each residue once in its range (`Stores.eq_of_residue`), and what is read is the integer of the range (`pack_residue`).
-/

namespace WireLayout

namespace Number

variable {kind : Number}

/-- The digits of the residue of an integer, to the base of 256, least significant first. -/
def digits (kind : Number) (n : Int64) : List UInt8 := Bytes.ofWord kind.size (n.toInt % kind.range).toNat

/-- The number of words of a kind, by its bits. -/
theorem range_eq_two_pow (kind : Number) : (kind.range : Int) = 2 ^ (8 * kind.size) := by
  cases kind <;> rfl

theorem length_digits (kind : Number) (n : Int64) : (kind.digits n).length = kind.size := Bytes.length_ofWord _ _

/-- Two integers have the same digits just when they have the same residue. -/
theorem digits_eq_iff (h : kind.isFloat = false) {m n : Int64} :
    kind.digits m = kind.digits n ↔ m.toInt % 2 ^ (8 * kind.size) = n.toInt % 2 ^ (8 * kind.size) := by
  rw [← range_eq_two_pow]
  constructor
  · intro same
    obtain ⟨half, hrange, hpos, -⟩ := range_of_integral h
    have hm := Int.emod_nonneg m.toInt (show (kind.range : Int) ≠ 0 by omega)
    have hn := Int.emod_nonneg n.toInt (show (kind.range : Int) ≠ 0 by omega)
    have hm' := Int.emod_lt_of_pos m.toInt (show (0 : Int) < kind.range by omega)
    have hn' := Int.emod_lt_of_pos n.toInt (show (0 : Int) < kind.range by omega)
    have words := congrArg Bytes.toWord same
    rw [digits, digits, Bytes.toWord_ofWord, Bytes.toWord_ofWord] at words
    have hword : Bytes.wordCount kind.size = kind.range := rfl
    rw [hword, Nat.mod_eq_of_lt (by omega), Nat.mod_eq_of_lt (by omega)] at words
    omega
  · intro same
    rw [digits, digits, same]

/-- No two integers of the range of a kind have the same residue. -/
theorem Stores.eq_of_residue {m n : Int64} (hm : kind.Stores m) (hn : kind.Stores n)
    (same : m.toInt % 2 ^ (8 * kind.size) = n.toInt % 2 ^ (8 * kind.size)) : m = n := by
  rw [← range_eq_two_pow] at same
  have hm' := hm.representative_emod
  rw [same, hn.representative_emod] at hm'
  exact Int64.toInt_inj.mp hm'.symm

/-- An integer appends its digits. -/
theorem pack_int (h : kind.isFloat = false) (order : ByteOrder) (n : Int64) (out : Bytes) :
    kind.pack order (.int n) out = .ok (out ++ (order.arrange (kind.digits n)).toArray) := by
  rw [pack_eq, encode_int h]
  rfl

/-- The bytes of a number are read where they stand. -/
theorem unpack_between (order : ByteOrder) {run : List UInt8} (hlength : run.length = kind.size) (front back : Bytes) :
    kind.unpack order ⟨front ++ run.toArray ++ back, front.size⟩ =
      .ok (kind.decode order run, ⟨front ++ run.toArray ++ back, front.size + kind.size⟩) := by
  have size : run.toArray.size = kind.size := hlength
  refine unpack_eq_decode order size ?_
  rw [Array.append_assoc]
  simp

/-- What is read from the digits of an integer is the integer of the range with the same residue. -/
theorem exists_decode_digits (h : kind.isFloat = false) (n : Int64) :
    ∃ k : Int64, kind.Stores k ∧ k.toInt % 2 ^ (8 * kind.size) = n.toInt % 2 ^ (8 * kind.size) ∧
      ∀ order : ByteOrder, kind.decode order (order.arrange (kind.digits n)) = .int k := by
  obtain ⟨k, hdecode, hstores, hencode⟩ := exists_stores_of_run h .little (kind.length_digits n)
  rw [encode_int h] at hencode
  refine ⟨k, hstores, (digits_eq_iff h).mp (Except.ok.inj hencode), fun order => ?_⟩
  rw [decode_int h] at hdecode ⊢
  rw [ByteOrder.arrange_arrange, ← hdecode]
  rfl

/-- An integer kind of `w` bits stores residues modulo `2 ^ w`. For every integer there is a run of bytes, as long as the kind is wide,
which the big order has the other way around. It is appended for the integers of the same residue and for no others, and read
as the one of them that lies in the range of the kind. And every run of bytes that is as long as the kind is wide is read as an integer of the
range, for which the same bytes are appended. -/
theorem pack_residue (h : kind.isFloat = false) :
    (∀ n : Int64, ∃ (k : Int64) (run : ByteOrder → List UInt8),
      run .big = (run .little).reverse ∧ kind.Stores k ∧
        (∀ m, kind.Stores m → m.toInt % 2 ^ (8 * kind.size) = n.toInt % 2 ^ (8 * kind.size) → m = k) ∧
        k.toInt % 2 ^ (8 * kind.size) = n.toInt % 2 ^ (8 * kind.size) ∧
        ∀ order, (run order).length = kind.size ∧
          (∀ (m : Int64) (out : Bytes), kind.pack order (.int m) out = .ok (out ++ (run order).toArray) ↔
            m.toInt % 2 ^ (8 * kind.size) = n.toInt % 2 ^ (8 * kind.size)) ∧
          ∀ front back : Bytes, kind.unpack order ⟨front ++ (run order).toArray ++ back, front.size⟩ =
            .ok (.int k, ⟨front ++ (run order).toArray ++ back, front.size + kind.size⟩)) ∧
    ∀ (order : ByteOrder) (run : List UInt8), run.length = kind.size →
      ∃ k : Int64, kind.Stores k ∧
        (∀ front back : Bytes, kind.unpack order ⟨front ++ run.toArray ++ back, front.size⟩ =
          .ok (.int k, ⟨front ++ run.toArray ++ back, front.size + kind.size⟩)) ∧
        ∀ out : Bytes, kind.pack order (.int k) out = .ok (out ++ run.toArray) := by
  refine ⟨fun n => ?_, fun order run hlength => ?_⟩
  · obtain ⟨k, hstores, hresidue, hdecode⟩ := exists_decode_digits h n
    refine ⟨k, fun order => order.arrange (kind.digits n), rfl, hstores, ?_, hresidue, fun order => ⟨?_, ?_, ?_⟩⟩
    · intro m hm same
      exact hm.eq_of_residue hstores (same.trans hresidue.symm)
    · rw [ByteOrder.length_arrange, length_digits]
    · intro m out
      rw [pack_int h, ← digits_eq_iff h]
      constructor
      · intro written
        have runs := congrArg Array.toList (Array.append_right_inj out |>.mp (Except.ok.inj written))
        have digits := congrArg order.arrange runs
        simpa using digits
      · intro same
        rw [same]
    · intro front back
      rw [unpack_between order (by rw [ByteOrder.length_arrange, length_digits]), hdecode]
  · obtain ⟨k, hdecode, hstores, hencode⟩ := exists_stores_of_run h order hlength
    refine ⟨k, hstores, fun front back => ?_, fun out => ?_⟩
    · rw [unpack_between order hlength, hdecode]
    · rw [pack_eq, hencode]
      rfl

/-- `40000` and `-25536` are the same for two signed bytes, which are read as the second one. -/
theorem pack_residue_wrapped : Number.int16.isFloat = false ∧
    ∃ run : List UInt8, run.length = 2 ∧ Number.int16.pack .big (.int 40000) #[] = .ok (#[] ++ run.toArray) ∧
      Number.int16.pack .big (.int (-25536)) #[] = .ok (#[] ++ run.toArray) ∧
      Number.int16.unpack .big ⟨#[] ++ run.toArray ++ #[], 0⟩ = .ok (.int (-25536), ⟨#[] ++ run.toArray ++ #[], 2⟩) := by
  obtain ⟨k, run, -, -, only, -, stored⟩ := (@pack_residue .int16 rfl).1 40000
  obtain ⟨hlength, hpack, hread⟩ := stored .big
  have same : (-25536 : Int64).toInt % 2 ^ (8 * Number.int16.size) = (40000 : Int64).toInt % 2 ^ (8 * Number.int16.size) := by decide
  obtain rfl : -25536 = k := only (-25536) ⟨rfl, by decide, by decide⟩ same
  exact ⟨rfl, run .big, hlength, (hpack 40000 #[]).mpr rfl, (hpack (-25536) #[]).mpr same, hread #[] #[]⟩

end Number

end WireLayout
