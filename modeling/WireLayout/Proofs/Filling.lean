import WireLayout.Proofs.Blocks

/-!
# Elements that are missing

As many elements as are asked for are written: further ones are dropped, and null stands for each that is missing (`Elements.filled`).
Null is zero in every kind of number, so that the zeros at the end of a block are the missing numbers of it. Hence numbers are written
the same as a block and one by one, however many of them are there (`packNumbers_eq_packEach`).
-/

namespace WireLayout

/-- How many elements an array of this count writes for a value. -/
def Count.lengthFor (count : Count) (v : Value) : Nat :=
  match count with
  | fixed n => n
  | _ => (v.list?.getD []).length

namespace Elements

/-- A value has its items as elements, null has none, and what is no list has no elements to write. -/
theorem ofValue_cases (v : Value) : ofValue v = pure (v.list?.getD []) ∨ ∃ fault, ofValue v = Walk.fail fault := by
  cases v with
  | list items => exact Or.inl rfl
  | null => exact Or.inl rfl
  | _ => exact Or.inr ⟨_, rfl⟩

theorem packArray_eq {Γ : Context} {run : Schema → Value → Packing Unit} {item : Candidate} {count : Count} {v : Value}
    (h : ofValue v = pure (v.list?.getD [])) :
    packArray Γ run item count v =
      count.pack Γ (v.list?.getD []).length >>= fun _ => pack Γ run item (v.list?.getD []) (count.lengthFor v) := by
  rw [packArray, h, pure_bind]
  cases count <;> rfl

/-- Exactly `count` elements: the first ones, and null for those that are missing. -/
def filled (items : List Value) (count : Nat) : List Value := items.take count ++ List.replicate (count - items.length) .null

@[simp]
theorem length_filled (items : List Value) (count : Nat) : (filled items count).length = count := by
  simp only [filled, List.length_append, List.length_take, List.length_replicate]
  omega

theorem filled_nil (count : Nat) : filled [] count = List.replicate count .null := by
  simp [filled]

theorem filled_cons (v : Value) (rest : List Value) (count : Nat) : filled (v :: rest) (count + 1) = v :: filled rest count := by
  simp [filled, Nat.add_sub_add_right]

/-- Elements that are all there are kept as they are. -/
theorem filled_length (items : List Value) : filled items items.length = items := by
  simp [filled]

/-- Elements of which some are missing come first. -/
theorem filled_eq_append {items : List Value} {count : Nat} (h : items.length ≤ count) :
    filled items count = items ++ List.replicate (count - items.length) .null := by
  rw [filled, List.take_of_length_le h]

/-- Missing elements are written as null. -/
theorem packEach_filled (step : Value → Packing Unit) (items : List Value) (count : Nat) :
    packEach step count items = packEach step count (filled items count) := by
  induction count generalizing items with
  | zero => rfl
  | succ count ih =>
    rw [packEach_succ, packEach_succ]
    cases items with
    | nil =>
      rw [filled_nil, List.replicate_succ, List.head?_cons, List.tail_cons, ← filled_nil, ← ih]
      rfl
    | cons v rest =>
      rw [filled_cons, List.head?_cons, List.tail_cons, List.head?_cons, List.tail_cons, ← ih]

end Elements

namespace Number

variable (kind : Number) (order : ByteOrder)

/-- Null is written as zeros. -/
theorem encode_null : kind.encode order .null = .ok (List.replicate kind.size 0) := by
  cases kind <;> cases order <;> rfl

theorem pack_null (out : Bytes) : kind.pack order .null out = .ok (out ++ Bytes.zeros kind.size) := by
  rw [pack_eq, encode_null]
  rfl

theorem packEach_append (first rest : List Value) (out : Bytes) :
    kind.packEach order (first ++ rest) out = kind.packEach order first out >>= kind.packEach order rest := by
  induction first generalizing out with
  | nil => rfl
  | cons v first ih =>
    rw [List.cons_append, packEach, packEach]
    cases kind.pack order v out with
    | error fault => rfl
    | ok out' => exact ih out'

theorem packEach_nulls (count : Nat) (out : Bytes) :
    kind.packEach order (List.replicate count .null) out = .ok (out ++ Bytes.zeros (kind.size * count)) := by
  induction count generalizing out with
  | zero => exact congrArg Except.ok Array.append_empty.symm
  | succ count ih =>
    have zeros : Bytes.zeros kind.size ++ Bytes.zeros (kind.size * count) = Bytes.zeros (kind.size * (count + 1)) := by
      rw [Bytes.zeros, Bytes.zeros, Bytes.zeros, Array.replicate_append_replicate, Nat.mul_succ, Nat.add_comm]
    rw [List.replicate_succ, packEach, pack_null]
    show kind.packEach order (List.replicate count .null) (out ++ Bytes.zeros kind.size) = _
    rw [ih, Array.append_assoc, zeros]

/-- The zeros at the end of a block are the numbers that are missing. -/
theorem packBlock_eq_packEach (values : List Value) (count : Nat) (out : Bytes) :
    kind.packBlock order values count out = kind.packEach order (Elements.filled values count) out := by
  rw [Elements.filled, packEach_append, packBlock_eq]
  cases h : kind.packEach order (values.take count) out with
  | error fault => rfl
  | ok out' =>
    have fill : out.size + kind.size * count - out'.size = kind.size * (count - values.length) := by
      rw [size_of_packEach h, List.length_take, Nat.mul_sub]
      rcases Nat.le_total count values.length with hle | hle
      · rw [Nat.min_eq_left hle, Nat.sub_self, Nat.sub_eq_zero_of_le (Nat.mul_le_mul_left _ hle)]
      · rw [Nat.min_eq_right hle]
        omega
    show Except.ok (out' ++ Bytes.zeros (out.size + kind.size * count - out'.size)) = _
    rw [fill]
    exact (packEach_nulls kind order _ out').symm

end Number

namespace Elements

/-- Numbers are written as they are written one by one, also where a block is longer or shorter than what there is. -/
theorem packNumbers_eq_packEach (Γ : Context) (kind : Number) (items : List Value) (count : Nat) :
    packNumbers Γ kind items count = packEach (Packing.number Γ kind) count items := by
  have each := onOutput_packEach Γ kind (filled items count)
  rw [length_filled, ← packEach_filled] at each
  rw [packNumbers, ← each]
  split
  · refine congrArg Packing.onOutput (funext ?_)
    intro out
    exact Number.packBlock_eq_packEach kind _ items count out
  · rfl

/-- So elements are written one by one, whatever they are and however many are asked for. -/
theorem pack_eq_packEach {Γ : Context} {run : Schema → Value → Packing Unit} {item : Candidate} {schema : Schema}
    (hitem : Γ.registry.resolve item = .ok schema) (items : List Value) (count : Nat) :
    pack Γ run item items count = packEach (writeOne Γ run schema) count items := by
  rw [pack, Walk.resolve_bind_ok hitem]
  cases schema with
  | number kind => exact packNumbers_eq_packEach Γ kind items count
  | _ => rfl

end Elements

end WireLayout
