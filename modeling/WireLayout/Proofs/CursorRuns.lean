import WireLayout.Cursor
import WireLayout.Proofs.Relocation

/-!
# Runs of cursor steps

A cursor that starts at the front of its data never leaves it, whatever steps are tried on it. What comes of a step depends on the
position that it asks for (`Step.target`): if the data has it, the step gives the bytes that it stands for (`Gives`) and moves there
(`perform_of_le`), and if not, it reports how many bytes it needed and how many are left, and the cursor stays where it was
(`perform_of_lt`). So a run stays in bounds from the first step to the last, failed ones included (`performAll_inBounds`). That it is in
bounds is also what makes the reports right: behind the end of the data, taking no bytes at all would succeed.
-/

namespace WireLayout

namespace Cursor

/-- These are the next `n` bytes. -/
def Next (c : Cursor) (n : Nat) (bytes : Bytes) : Prop :=
  ∃ front back : Bytes, c.data = front ++ bytes ++ back ∧ front.size = c.position ∧ bytes.size = n

/-- The position that a step asks for. -/
def Step.target (c : Cursor) : Step → Nat
  | .take n | .skip n | .takeOrdered n _ => c.position + n
  | .seek position => position
  | .rest | .data => c.position

/-- What a step gives when the data has the position that it asks for. -/
inductive Gives (c : Cursor) : Step → Option Bytes → Prop where
  | take {n : Nat} {bytes : Bytes} : c.Next n bytes → Gives c (.take n) (some bytes)
  | skip (n : Nat) : Gives c (.skip n) none
  | seek (position : Nat) : Gives c (.seek position) none
  | rest {front bytes : Bytes} : c.data = front ++ bytes → front.size = c.position → Gives c .rest (some bytes)
  | data : Gives c .data (some c.data)
  /-- Bytes that stand least significant first are turned around. -/
  | takeLittle {n : Nat} {bytes : Bytes} : c.Next n bytes → Gives c (.takeOrdered n .little) (some bytes.reverse)
  | takeBig {n : Nat} {bytes : Bytes} : c.Next n bytes → Gives c (.takeOrdered n .big) (some bytes)

/-- The cursor behind steps that are tried one after another. -/
def after (c : Cursor) (steps : List Step) : Cursor := steps.foldl (fun c s => (c.perform s).2) c

variable {c : Cursor} {n : Nat}

/-! ## One step -/

/-- The data up to a position is followed by the data between it and a later one. -/
theorem extract_append_between (data : Bytes) {p q : Nat} (h : p ≤ q) : data.extract 0 p ++ data.extract p q = data.extract 0 q := by
  rw [Array.extract_append_extract, Nat.zero_min, Nat.max_eq_right h]

theorem next_of_le (h : c.position + n ≤ c.data.size) : c.Next n (c.data.extract c.position (c.position + n)) := by
  refine ⟨c.data.extract 0 c.position, c.data.extract (c.position + n) c.data.size, ?_, ?_, ?_⟩
  · rw [extract_append_between _ (Nat.le_add_right _ _), extract_append_between _ h, Array.extract_size]
  · rw [Array.size_extract]
    omega
  · rw [Array.size_extract]
    omega

theorem slice_of_le (h : c.position + n ≤ c.data.size) :
    c.data.slice c.position n = .ok (c.data.extract c.position (c.position + n)) :=
  if_pos (by omega)

theorem slice_of_lt (bound : c.InBounds) (h : c.data.size < c.position + n) :
    c.data.slice c.position n = .error (.bufferUnderflow c.position n (c.data.size - c.position)) := by
  rw [InBounds] at bound
  exact if_neg (by omega)

/-- A step that asks for a position of the data gives what it stands for, and moves there. -/
theorem perform_of_le {s : Step} (bound : c.InBounds) (h : s.target c ≤ c.data.size) :
    ∃ given, Gives c s given ∧ c.perform s = (.ok given, { c with position := s.target c }) := by
  cases s with
  | take n =>
    refine ⟨_, .take (next_of_le h), ?_⟩
    rw [perform, step, Cursor.take, slice_of_le h]
    rfl
  | skip n =>
    refine ⟨none, .skip n, ?_⟩
    rw [perform, step, Cursor.skip, Cursor.take, slice_of_le h]
    rfl
  | seek position =>
    refine ⟨none, .seek position, ?_⟩
    have inside : position ≤ c.data.size := h
    rw [perform, step, Cursor.seek, if_pos inside]
    rfl
  | rest =>
    have split : c.data = c.data.extract 0 c.position ++ c.rest := by
      rw [Cursor.rest, extract_append_between _ bound, Array.extract_size]
    have front : (c.data.extract 0 c.position).size = c.position := by
      rw [Array.size_extract]
      exact Nat.min_eq_left bound
    exact ⟨some c.rest, .rest split front, rfl⟩
  | data => exact ⟨some c.data, .data, rfl⟩
  | takeOrdered n order =>
    cases order with
    | little =>
      refine ⟨_, .takeLittle (next_of_le h), ?_⟩
      rw [perform, step, takeOrdered, Bytes.sliceOrdered, slice_of_le h]
      rfl
    | big =>
      refine ⟨_, .takeBig (next_of_le h), ?_⟩
      rw [perform, step, takeOrdered, Bytes.sliceOrdered, slice_of_le h]
      rfl

/-- A step that asks for a position behind the data reports what it needed and what is left, and moves nowhere. -/
theorem perform_of_lt {s : Step} (bound : c.InBounds) (h : c.data.size < s.target c) :
    ∃ needed available, c.position + needed = s.target c ∧ c.position + available = c.data.size ∧
      c.perform s = (.error (.bufferUnderflow c.position needed available), c) := by
  have left : c.position + (c.data.size - c.position) = c.data.size := Nat.add_sub_of_le bound
  cases s with
  | take n =>
    refine ⟨n, c.data.size - c.position, rfl, left, ?_⟩
    rw [perform, step, Cursor.take, slice_of_lt bound h]
    rfl
  | skip n =>
    refine ⟨n, c.data.size - c.position, rfl, left, ?_⟩
    rw [perform, step, Cursor.skip, Cursor.take, slice_of_lt bound h]
    rfl
  | seek position =>
    have outside : c.data.size < position := h
    refine ⟨position - c.position, c.data.size - c.position, Nat.add_sub_of_le (Nat.le_trans bound (Nat.le_of_lt outside)), left, ?_⟩
    rw [perform, step, Cursor.seek, if_neg (Nat.not_le_of_lt outside)]
    rfl
  | rest | data => exact absurd h (Nat.not_lt_of_le bound)
  | takeOrdered n order =>
    refine ⟨n, c.data.size - c.position, rfl, left, ?_⟩
    rw [perform, step, takeOrdered, Bytes.sliceOrdered, slice_of_lt bound h]
    rfl

/-- No step leaves the data, and none changes it. -/
theorem perform_inBounds (bound : c.InBounds) (s : Step) : (c.perform s).2.data = c.data ∧ (c.perform s).2.InBounds := by
  rcases Nat.lt_or_ge c.data.size (s.target c) with behind | within
  · obtain ⟨_, _, -, -, stays⟩ := perform_of_lt bound behind
    rw [stays]
    exact ⟨rfl, bound⟩
  · obtain ⟨_, -, moves⟩ := perform_of_le bound within
    rw [moves]
    exact ⟨rfl, within⟩

/-! ## Any number of steps -/

theorem after_inBounds (bound : c.InBounds) (steps : List Step) : (c.after steps).data = c.data ∧ (c.after steps).InBounds := by
  induction steps generalizing c with
  | nil => exact ⟨rfl, bound⟩
  | cons s rest ih =>
    obtain ⟨same, inside⟩ := perform_inBounds bound s
    obtain ⟨same', inside'⟩ := ih inside
    exact ⟨same'.trans same, inside'⟩

/-- What steps do behind others, they do from where the others leave the cursor. -/
theorem performAll_append (c : Cursor) (earlier later : List Step) :
    c.performAll (earlier ++ later) = c.performAll earlier ++ (c.after earlier).performAll later := by
  induction earlier generalizing c with
  | nil => rfl
  | cons s rest ih => exact congrArg (c.perform s :: ·) (ih (c.perform s).2)

/-- Any step of any run that starts at the front of its data, whatever was tried before it and failed or not: the cursor is in
bounds in front of it and behind it. It succeeds exactly if the data has the position that it asks for, and then it gives what it
stands for and moves there. Otherwise it reports its position, the bytes from there to the position that it asks for, and the bytes from
there to the end, and the cursor stays as it was. -/
theorem performAll_inBounds (data : Bytes) (earlier : List Step) (s : Step) (later : List Step) :
    ∃ c done, c = (ofBytes data).after earlier ∧ done = c.perform s ∧
      (ofBytes data).performAll (earlier ++ s :: later) = (ofBytes data).performAll earlier ++ done :: done.2.performAll later ∧
      c.data = data ∧ c.position ≤ data.size ∧ done.2.data = data ∧ done.2.position ≤ data.size ∧
      ((s.target c ≤ data.size ∧ ∃ given, Gives c s given ∧ done = (.ok given, { c with position := s.target c })) ∨
        (data.size < s.target c ∧ ∃ needed available, c.position + needed = s.target c ∧ c.position + available = data.size ∧
          done = (.error (.bufferUnderflow c.position needed available), c))) := by
  obtain ⟨same, bound⟩ := after_inBounds (c := ofBytes data) (Nat.zero_le _) earlier
  generalize hc : (ofBytes data).after earlier = c at same bound
  obtain ⟨same', bound'⟩ := perform_inBounds bound s
  obtain rfl : c.data = data := same
  have inside : (c.perform s).2.position ≤ c.data.size := by
    rw [← same']
    exact bound'
  refine ⟨c, c.perform s, rfl, rfl, ?_, rfl, bound, same', inside, ?_⟩
  · rw [performAll_append, hc]
    rfl
  · rcases Nat.lt_or_ge c.data.size (s.target c) with behind | within
    · exact .inr ⟨behind, perform_of_lt bound behind⟩
    · exact .inl ⟨within, perform_of_le bound within⟩

/-- A failed step between two that succeed, and a seek backwards behind them. -/
example : (ofBytes #[1, 2, 3, 4]).performAll [.take 1, .seek 9, .takeOrdered 2 .little, .seek 2, .rest] =
    [(.ok (some #[1]), ⟨#[1, 2, 3, 4], 1⟩), (.error (.bufferUnderflow 1 8 3), ⟨#[1, 2, 3, 4], 1⟩),
      (.ok (some #[3, 2]), ⟨#[1, 2, 3, 4], 3⟩), (.ok none, ⟨#[1, 2, 3, 4], 2⟩), (.ok (some #[3, 4]), ⟨#[1, 2, 3, 4], 2⟩)] := by cbv

end Cursor

end WireLayout
