import WireLayout.Proofs.Reading

/-!
# Padding and terminators

A text of fixed size is filled up with zero bytes, a terminated one ends at the first of them. Filling up and dropping zeros undo
each other (`dropPadding_fit`, `fit_dropPadding`), and so do ending a text and looking for its end (`beforeTerminator_fit_push`),
where the text has no zero bytes of its own. Those are its NUL characters, because no other character has a zero byte
(`Encoding.nul_of_zero_mem`).
-/

namespace WireLayout

namespace Bytes

/-- Bytes that fit are followed by zeros. -/
theorem fit_eq_append {content : Bytes} {size : Nat} (h : content.size ≤ size) :
    content.fit size = content ++ zeros (size - content.size) := by
  have hall : content.extract 0 size = content := by
    rw [Array.extract_eq_self_iff]
    omega
  rw [fit, hall]

/-- Bytes of the right size are kept as they are. -/
theorem fit_size (content : Bytes) : content.fit content.size = content := by
  rw [fit_eq_append (Nat.le_refl _), Nat.sub_self]
  exact Array.append_empty

end Bytes

namespace Text

/-- Only zeros are dropped. -/
theorem dropPadding_append_zeros (raw : Bytes) : ∃ n, dropPadding raw ++ Bytes.zeros n = raw := by
  obtain ⟨bytes⟩ := raw
  have hsplit : bytes.reverse.takeWhile (· == 0) ++ bytes.reverse.dropWhile (· == 0) = bytes.reverse :=
    List.takeWhile_append_dropWhile
  have hzeros : bytes.reverse.takeWhile (· == 0) = List.replicate (bytes.reverse.takeWhile (· == 0)).length 0 := by
    rw [List.eq_replicate_iff]
    refine ⟨rfl, ?_⟩
    intro b hb
    have hzero := List.all_eq_true.mp (List.all_takeWhile (p := (· == (0 : UInt8))) (l := bytes.reverse)) b hb
    exact eq_of_beq hzero
  refine ⟨(bytes.reverse.takeWhile (· == 0)).length, ?_⟩
  apply Array.ext'
  rw [dropPadding, List.popWhile_toArray, Array.toList_append, Bytes.zeros, Array.toList_replicate]
  have hback := congrArg List.reverse hsplit
  rw [List.reverse_append, List.reverse_reverse, hzeros, List.reverse_replicate] at hback
  exact hback

/-- Filling up brings back the zeros that were dropped. -/
theorem fit_dropPadding (raw : Bytes) : (dropPadding raw).fit raw.size = raw := by
  obtain ⟨n, hraw⟩ := dropPadding_append_zeros raw
  have hsize : raw.size = (dropPadding raw).size + n := by
    rw [← congrArg Array.size hraw, Array.size_append, Bytes.zeros, Array.size_replicate]
  rw [hsize, Bytes.fit_eq_append (Nat.le_add_right _ _), Nat.add_sub_cancel_left, hraw]

/-- Dropping zeros undoes filling up, for bytes that do not end in a zero. -/
theorem dropPadding_fit {bytes : Bytes} {n : Nat} (h : bytes.size ≤ n) (hlast : bytes.back? ≠ some 0) :
    dropPadding (bytes.fit n) = bytes := by
  have hkeep : dropPadding bytes = bytes := by
    obtain ⟨k, hk⟩ := dropPadding_append_zeros bytes
    cases k with
    | zero => exact Array.append_empty.symm.trans hk
    | succ k =>
      refine absurd ?_ hlast
      rw [← hk, Bytes.zeros, Array.replicate_succ, Array.append_push, Array.back?_push]
  rw [Bytes.fit_eq_append h, dropPadding, Array.popWhile_append_of_pos]
  · exact hkeep
  · intro b hb
    rw [Bytes.zeros, Array.mem_replicate] at hb
    rw [hb.2]
    rfl

/-- The end of a text is found, when the region has room for all but its terminator. -/
theorem beforeTerminator_fit_push {bytes : Bytes} {n : Nat} (h : bytes.size ≤ n) (hnul : 0 ∉ bytes) :
    beforeTerminator (Bytes.fit (bytes.push 0) n) = bytes := by
  have hfit : Bytes.fit (bytes.push 0) n = bytes ++ Bytes.zeros (n - bytes.size) := by
    rcases Nat.lt_or_eq_of_le h with hlt | rfl
    · obtain ⟨k, rfl⟩ := Nat.exists_eq_add_of_lt hlt
      have hsize : (bytes.push 0).size ≤ bytes.size + k + 1 := by
        rw [Array.size_push]
        omega
      have hleft : bytes.size + k + 1 - bytes.size = k + 1 := by omega
      have hfill : bytes.size + k + 1 - (bytes.push 0).size = k := by
        rw [Array.size_push]
        omega
      rw [Bytes.fit_eq_append hsize, hleft, hfill]
      apply Array.ext'
      simp [Bytes.zeros, List.replicate_succ]
    · apply Array.ext'
      simp [Bytes.fit, Bytes.zeros]
  have hzeros : (Bytes.zeros (n - bytes.size)).takeWhile (· != 0) = #[] := by
    rw [Bytes.zeros, Array.takeWhile_replicate]
    rfl
  rw [hfit, beforeTerminator, Array.takeWhile_append_of_pos, hzeros, Array.append_empty]
  intro b hb
  exact bne_iff_ne.mpr fun hzero => hnul (hzero ▸ hb)

theorem beforeTerminator_push {bytes : Bytes} (hnul : 0 ∉ bytes) : beforeTerminator (bytes.push 0) = bytes := by
  have hfit := beforeTerminator_fit_push (Nat.le_succ bytes.size) hnul
  rw [Nat.succ_eq_add_one, ← Array.size_push 0, Bytes.fit_size] at hfit
  exact hfit

end Text

namespace Encoding

/-- Every byte of an encoding of more than one byte has its highest bit set. -/
theorem high_of_mem {c : Char} (long : c.utf8Size ≠ 1) {b : UInt8} (hb : b ∈ String.utf8EncodeChar c) : 128 ≤ b := by
  have hhigh : ∀ k, 128 ≤ k → k < 256 → 128 ≤ UInt8.ofNat k := by
    intro k hlow hlt
    rw [UInt8.le_iff_toNat_le, UInt8.toNat_ofNat', Nat.mod_eq_of_lt hlt]
    exact hlow
  simp only [String.utf8EncodeChar] at hb
  split at hb
  · next small => exact absurd (Char.utf8Size_eq_one_iff.mpr (UInt32.le_iff_toNat_le.mpr small)) long
  · split at hb
    · simp only [List.mem_cons, List.not_mem_nil, or_false] at hb
      rcases hb with rfl | rfl <;> exact hhigh _ (by omega) (by omega)
    · split at hb
      · simp only [List.mem_cons, List.not_mem_nil, or_false] at hb
        rcases hb with rfl | rfl | rfl <;> exact hhigh _ (by omega) (by omega)
      · simp only [List.mem_cons, List.not_mem_nil, or_false] at hb
        rcases hb with rfl | rfl | rfl | rfl <;> exact hhigh _ (by omega) (by omega)

/-- Only the NUL character has a zero byte. -/
theorem eq_nul_of_zero_mem {c : Char} (h : 0 ∈ String.utf8EncodeChar c) : c = '\x00' := by
  have single : c.utf8Size = 1 := Decidable.byContradiction fun long => absurd (high_of_mem long h) (by decide)
  have small := UInt32.le_iff_toNat_le.mp (Char.utf8Size_eq_one_iff.mp single)
  rw [String.utf8EncodeChar_eq_singleton single, List.mem_singleton] at h
  have hnat := congrArg UInt8.toNat h
  rw [UInt8.toNat_zero, UInt32.toNat_toUInt8] at hnat
  have hzero : c.val.toNat = 0 := by
    have hbound : c.val.toNat ≤ 127 := small
    omega
  exact Char.toNat_inj.mp hzero

/-- The bytes of a text are those of its characters, one after another. -/
theorem encode?_eq {encoding : Encoding} {text : String} {bytes : Bytes} (h : encoding.encode? text = some bytes) :
    bytes = (text.toList.flatMap String.utf8EncodeChar).toArray := by
  unfold encode? at h
  split at h
  · obtain rfl := Option.some.inj h
    rw [String.toUTF8, ← String.utf8Encode_toList, List.utf8Encode, List.data_toByteArray]
  · cases h

/-- A text has a zero byte only where it has a NUL character. -/
theorem nul_of_zero_mem {encoding : Encoding} {text : String} {bytes : Bytes} (h : encoding.encode? text = some bytes)
    (hzero : 0 ∈ bytes) : '\x00' ∈ text.toList := by
  rw [encode?_eq h] at hzero
  obtain ⟨c, hc, hmem⟩ := List.mem_flatMap.mp hzero.val
  rw [← eq_nul_of_zero_mem hmem]
  exact hc

/-- A text ends in a zero byte only when it ends in a NUL character. -/
theorem nul_of_back?_zero {encoding : Encoding} {text : String} {bytes : Bytes} (h : encoding.encode? text = some bytes)
    (hzero : bytes.back? = some 0) : text.toList.getLast? = some '\x00' := by
  rw [encode?_eq h] at hzero
  rcases List.eq_nil_or_concat text.toList with hnil | ⟨init, c, hlast⟩
  · rw [hnil] at hzero
    cases hzero
  · rw [hlast, List.concat_eq_append] at hzero ⊢
    have hc : 0 ∈ String.utf8EncodeChar c := by
      rw [List.flatMap_append, List.flatMap_singleton, List.back?_toArray, List.getLast?_append,
        List.getLast?_eq_some_getLast String.utf8EncodeChar_ne_nil, Option.some_or] at hzero
      rw [← Option.some.inj hzero]
      exact List.getLast_mem _
    rw [List.getLast?_concat, eq_nul_of_zero_mem hc]

end Encoding

end WireLayout
