import WireLayout.Proofs.BlockPaths
import WireLayout.Proofs.Reading

/-!
# Writing behind other bytes

What is written does not depend on what stands in front of it: behind other bytes the output functions append the same bytes, and
overwriting at an offset that is counted from the start of the output overwrites the same bytes. `Written` is this for functions
that append.
-/

namespace WireLayout

namespace Bytes

theorem overwrite_append (front out : Bytes) (offset : Nat) (content : List UInt8) :
    (front ++ out).overwrite (front.size + offset) content = front ++ out.overwrite offset content := by
  induction content generalizing out offset with
  | nil => rfl
  | cons b rest ih =>
    have hset : (front ++ out).setIfInBounds (front.size + offset) b = front ++ out.setIfInBounds offset b := by
      rw [Array.setIfInBounds_append_right (Nat.le_add_right _ _), Nat.add_sub_cancel_left]
    rw [overwrite, overwrite, hset, Nat.add_assoc, ih]

/-- Patching behind other bytes patches the same bytes and leaves those in front alone. -/
theorem patch_append (front out : Bytes) (offset : Nat) (content : Bytes) :
    (front ++ out).patch (front.size + offset) content = front ++ out.patch offset content := by
  have hgrow : front.size + offset + content.size - (front ++ out).size = offset + content.size - out.size := by
    rw [Array.size_append]
    omega
  rw [patch, patch, hgrow, Array.append_assoc, overwrite_append]

/-- Writing bytes over the same bytes changes nothing. -/
theorem overwrite_self {target : Bytes} {offset : Nat} {content : List UInt8}
    (h : ∀ i, i < content.length → target[offset + i]? = content[i]?) : target.overwrite offset content = target := by
  induction content generalizing offset with
  | nil => rfl
  | cons b rest ih =>
    have hfirst : target[offset]? = some b := h 0 (Nat.succ_pos _)
    have hset : target.setIfInBounds offset b = target := by
      apply Array.ext_getElem?
      intro i
      rw [Array.getElem?_setIfInBounds]
      split
      · next hi =>
        obtain ⟨hlt, -⟩ := Array.getElem?_eq_some_iff.mp hfirst
        rw [if_pos hlt, ← hi, hfirst]
      · rfl
    rw [overwrite, hset]
    refine ih ?_
    intro i hi
    have hnext := h (i + 1) (Nat.succ_lt_succ hi)
    rw [List.getElem?_cons_succ, ← Nat.add_assoc, Nat.add_right_comm] at hnext
    exact hnext

theorem patch_self {out content : Bytes} {offset : Nat} (hpos : 0 < content.size)
    (h : out.extract offset (offset + content.size) = content) : out.patch offset content = out := by
  have hsize := congrArg Array.size h
  rw [Array.size_extract] at hsize
  have hgrow : offset + content.size - out.size = 0 := by omega
  rw [patch, hgrow, zeros, Array.replicate_zero, Array.append_empty]
  refine overwrite_self ?_
  intro i hi
  rw [Array.length_toList] at hi
  rw [Array.getElem?_toList, ← h, Array.getElem?_extract, if_pos (by omega)]

end Bytes

/-- A function on the output appends the same bytes wherever the output ends. -/
def Written (f : Bytes → Except Fault Bytes) : Prop := ∀ front out, f (front ++ out) = (f out).map (front ++ ·)

namespace Number

variable (kind : Number) (order : ByteOrder)

theorem written_pack (v : Value) : Written (kind.pack order v) := by
  intro front out
  rw [pack_eq, pack_eq]
  cases kind.encode order v with
  | error fault => rfl
  | ok run =>
    simp only [Except.map]
    rw [Array.append_assoc]

theorem written_packCount (count : Nat) : Written (kind.packCount order count) := by
  intro front out
  rw [packCount, packCount]
  split
  · rfl
  · exact written_pack kind order _ front out

theorem written_packEach (values : List Value) : Written (kind.packEach order values) := by
  intro front out
  induction values generalizing out with
  | nil => rfl
  | cons v rest ih =>
    rw [packEach, packEach, written_pack kind order v front out]
    cases kind.pack order v out with
    | error fault => rfl
    | ok out => exact ih out

theorem written_packBlock (values : List Value) (count : Nat) : Written (kind.packBlock order values count) := by
  intro front out
  rw [packBlock_eq, packBlock_eq, written_packEach kind order _ front out]
  cases kind.packEach order (values.take count) out with
  | error fault => rfl
  | ok out' =>
    have hfill : (front ++ out).size + kind.size * count - (front ++ out').size =
        out.size + kind.size * count - out'.size := by
      rw [Array.size_append, Array.size_append]
      omega
    simp only [Except.map, hfill, Array.append_assoc]

end Number

end WireLayout
