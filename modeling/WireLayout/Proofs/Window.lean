import WireLayout.Proofs.Output
import WireLayout.Proofs.Input

/-!
# Windows of the output

A window is a range of the output that holds one thing in one run and something else of the same size in another, while all around it
the two outputs are the same (`Window.Splits`). Appending keeps this, and so does writing the same bytes in both runs over a place
outside the window. Writing the same bytes over the whole window makes the outputs the same (`Window.Splits.fill`).
-/

namespace WireLayout

namespace Bytes

theorem overwrite_append_left {front : Bytes} {offset : Nat} {content : List UInt8} (h : offset + content.length ≤ front.size)
    (out : Bytes) : (front ++ out).overwrite offset content = front.overwrite offset content ++ out := by
  induction content generalizing front offset with
  | nil => rfl
  | cons b rest ih =>
    rw [List.length_cons] at h
    have hset : (front ++ out).setIfInBounds offset b = front.setIfInBounds offset b ++ out :=
      Array.setIfInBounds_append_left (by omega)
    rw [overwrite, overwrite, hset, ih]
    rw [Array.size_setIfInBounds]
    omega

/-- Patching in front of other bytes leaves them alone. -/
theorem patch_append_left {front content : Bytes} {offset : Nat} (h : offset + content.size ≤ front.size) (out : Bytes) :
    (front ++ out).patch offset content = front.patch offset content ++ out := by
  have hfront : offset + content.size - front.size = 0 := by omega
  have hall : offset + content.size - (front ++ out).size = 0 := by
    rw [Array.size_append]
    omega
  rw [patch, patch, hfront, hall, zeros, Array.replicate_zero, Array.append_empty, Array.append_empty, overwrite_append_left]
  rw [Array.length_toList]
  exact h

/-- Bytes that are written over as many others take their place. -/
theorem overwrite_all {target : Bytes} {content : List UInt8} (h : content.length = target.size) :
    target.overwrite 0 content = content.toArray := by
  -- What is overwritten already stays in front.
  have hbehind : ∀ (done target : Bytes), content.length = target.size →
      (done ++ target).overwrite done.size content = done ++ content.toArray := by
    clear h
    induction content with
    | nil =>
      intro done target h
      rw [Array.eq_empty_of_size_eq_zero h.symm]
      rfl
    | cons b rest ih =>
      intro done target h
      obtain ⟨bytes⟩ := target
      cases bytes with
      | nil => cases h
      | cons old bytes =>
        have hset : (done ++ (old :: bytes).toArray).setIfInBounds done.size b = done.push b ++ bytes.toArray := by
          apply Array.ext'
          simp
        have hlength : rest.length = bytes.toArray.size := Nat.succ.inj h
        have hrest := ih (done.push b) bytes.toArray hlength
        rw [Array.size_push] at hrest
        rw [overwrite, hset, hrest]
        apply Array.ext'
        simp
  have hwhole := hbehind #[] target h
  simp only [Array.empty_append] at hwhole
  exact hwhole

/-- An output that is too short is filled up with zeros. -/
theorem patch_empty (offset : Nat) (content : Bytes) : patch #[] offset content = zeros offset ++ content := by
  have hzeros : zeros (offset + content.size) = zeros offset ++ zeros content.size :=
    Array.replicate_append_replicate.symm
  have hplace := overwrite_append (zeros offset) (zeros content.size) 0 content.toList
  have hsize : (zeros offset).size = offset := Array.size_replicate
  rw [hsize, Nat.add_zero, overwrite_all] at hplace
  · simp only [patch, Array.empty_append, List.size_toArray, List.length_nil, Nat.sub_zero, hzeros, hplace]
  · rw [Array.length_toList, zeros, Array.size_replicate]

end Bytes

/-- A range of the output, and what it holds in two runs. -/
structure Window where
  start : Nat
  left : Bytes
  right : Bytes
  same : right.size = left.size

namespace Window

/-- Where the window ends. -/
def stop (win : Window) : Nat := win.start + win.left.size

/-- A window of no bytes. -/
def closed : Window := ⟨0, #[], #[], rfl⟩

/-- A window that holds the same in both runs. -/
def filled (start : Nat) (content : Bytes) : Window := ⟨start, content, content, rfl⟩

/-- Two outputs are the same but for the window. -/
inductive Splits (win : Window) : Bytes → Bytes → Prop where
  | intro {front : Bytes} (back : Bytes) (h : front.size = win.start) :
      Splits win (front ++ win.left ++ back) (front ++ win.right ++ back)

namespace Splits

variable {win : Window} {out out' : Bytes}

theorem size_eq (h : win.Splits out out') : out'.size = out.size := by
  cases h
  simp [win.same]

theorem stop_le (h : win.Splits out out') : win.stop ≤ out.size := by
  cases h with
  | intro back hfront =>
    simp only [Array.size_append, stop]
    omega

theorem append (h : win.Splits out out') (bytes : Bytes) : win.Splits (out ++ bytes) (out' ++ bytes) := by
  cases h with
  | @intro front back hfront =>
    have hleft : front ++ win.left ++ back ++ bytes = front ++ win.left ++ (back ++ bytes) := Array.append_assoc
    have hright : front ++ win.right ++ back ++ bytes = front ++ win.right ++ (back ++ bytes) := Array.append_assoc
    rw [hleft, hright]
    exact .intro _ hfront

/-- Where a window is just written, everything else lies in front of it. -/
theorem new (out : Bytes) {left right : Bytes} (same : right.size = left.size) :
    Splits ⟨out.size, left, right, same⟩ (out ++ left) (out ++ right) := by
  have hnew : Splits ⟨out.size, left, right, same⟩ (out ++ left ++ #[]) (out ++ right ++ #[]) := .intro #[] rfl
  simpa using hnew

theorem eq_of_same (h : win.Splits out out') (hsame : win.left = win.right) : out = out' := by
  cases h
  rw [hsame]

theorem refl_closed (out : Bytes) : closed.Splits out out := by
  have hwhole : closed.Splits (#[] ++ #[] ++ out) (#[] ++ #[] ++ out) := .intro out rfl
  simpa using hwhole

/-- The first output holds the left content. -/
theorem extract (h : win.Splits out out') : out.extract win.start win.stop = win.left := by
  cases h with
  | @intro front back hfront =>
    have hplace := Bytes.extract_append_add front (win.left ++ back) 0 win.left.size
    rw [Nat.add_zero, hfront] at hplace
    rw [stop, Array.append_assoc, hplace, Array.extract_append_left, Array.extract_size]

/-- The same bytes, written over a place outside the window. -/
theorem patch (h : win.Splits out out') {offset : Nat} {content : Bytes}
    (hplace : win.stop ≤ offset ∨ offset + content.size ≤ win.start) :
    win.Splits (out.patch offset content) (out'.patch offset content) := by
  cases h with
  | @intro front back hfront =>
    rcases hplace with hbehind | hbefore
    · obtain ⟨k, rfl⟩ := Nat.exists_eq_add_of_le hbehind
      have hleft : win.stop = (front ++ win.left).size := by rw [Array.size_append, stop, hfront]
      have hright : win.stop = (front ++ win.right).size := by rw [Array.size_append, stop, hfront, win.same]
      have hpatch : (front ++ win.right ++ back).patch (win.stop + k) content = front ++ win.right ++ back.patch k content := by
        rw [hright, Bytes.patch_append]
      rw [hpatch, hleft, Bytes.patch_append]
      exact .intro _ hfront
    · rw [← hfront] at hbefore
      simp only [Array.append_assoc]
      rw [Bytes.patch_append_left hbefore, Bytes.patch_append_left hbefore, ← Array.append_assoc, ← Array.append_assoc]
      refine .intro back ?_
      rw [Bytes.size_patch, Nat.max_eq_left hbefore, hfront]

/-- The same bytes, written over all of the window. -/
theorem fill (h : win.Splits out out') {content : Bytes} (hsize : content.size = win.left.size) :
    (filled win.start content).Splits (out.patch win.start content) (out'.patch win.start content) := by
  cases h with
  | @intro front back hfront =>
    have hover : ∀ old : Bytes, content.size = old.size →
        (front ++ old ++ back).patch win.start content = front ++ content ++ back := by
      intro old hold
      have hplace := Bytes.patch_append front (old ++ back) 0 content
      have hwhole : old.patch 0 content = content := by
        rw [Bytes.patch, Nat.zero_add, hold, Nat.sub_self, Bytes.zeros, Array.replicate_zero, Array.append_empty,
          Bytes.overwrite_all]
        rw [Array.length_toList, hold]
      rw [Nat.add_zero, hfront] at hplace
      rw [Array.append_assoc, hplace, Bytes.patch_append_left, hwhole, Array.append_assoc]
      omega
    rw [hover win.left hsize, hover win.right (hsize.trans win.same.symm)]
    have hfilled : (filled win.start content).Splits (front ++ content ++ back) (front ++ content ++ back) := .intro back hfront
    exact hfilled

end Splits

end Window

end WireLayout
