import WireLayout.Proofs.ContextFree
import WireLayout.Proofs.Filling
import WireLayout.Proofs.Tandem

/-!
# Runs of numbers

A run of numbers is the same whether it is moved as one block or number by number, in either byte order, although a block narrows and
widens registers where a number by itself is a word (`WireLayout.Proofs.BlockPaths`). Written as a block it is the numbers one by one, with
null for each that is missing; read as a block it gives the same numbers and ends at the same place, and where bytes are missing it fails
as the numbers do (`unpackBlock_or_underflow`). So the two byte orders differ in the bytes of each number alone: an array of numbers in
one order is the array in the other with each run of bytes that is a number the other way around (`Bytes.Flipped`).
-/

namespace WireLayout

/-- The second bytes are the first ones with every run of `width` bytes the other way around. -/
def Bytes.Flipped (width : Nat) (bytes bytes' : Bytes) : Prop :=
  ∃ runs : List (List UInt8), (∀ run ∈ runs, run.length = width) ∧ bytes = runs.flatten.toArray ∧
    bytes' = (runs.map List.reverse).flatten.toArray

/-- Bytes are missing. -/
def Fault.IsUnderflow (fault : Fault) : Prop := ∃ offset needed available, fault = .bufferUnderflow offset needed available

theorem Cursor.take_underflow {c : Cursor} {n : Nat} {fault : Fault} (h : c.take n = .error fault) : fault.IsUnderflow := by
  simp only [take, Bytes.slice] at h
  split at h
  · cases h
  · cases h
    exact ⟨_, _, _, rfl⟩

/-- A step on the medium does to it what its function does. -/
theorem Walk.onMedium_eq_ok {μ α : Type} {f : μ → Except Fault (α × μ)} {medium medium' : μ} {a : α} (scope : Option Scope) :
    Walk.onMedium f ⟨medium, scope⟩ = .ok (a, ⟨medium', scope⟩) ↔ f medium = .ok (a, medium') := by
  simp only [Walk.onMedium]
  cases f medium with
  | error fault => simp
  | ok result =>
    obtain ⟨b, medium''⟩ := result
    simp

namespace Number

variable {kind : Number} {order : ByteOrder}

/-! ## Reading -/

/-- Numbers are read one by one exactly when there are bytes for all of them, and then they are those of the block. -/
theorem unpackEach_eq_ok {count : Nat} {data : Bytes} {p : Nat} {result : List Value × Cursor} :
    kind.unpackEach order count [] ⟨data, p⟩ = .ok result ↔
      kind.size * count ≤ data.size - p ∧
        result = (kind.decodeBlock order (data.extract p (p + kind.size * count)), ⟨data, p + kind.size * count⟩) := by
  obtain ⟨items, c⟩ := result
  let Γ : Context := ⟨.empty, Options.littleEndian.setByteOrder order⟩
  have walked : Elements.times (Unpacking.number Γ kind) count [] ⟨⟨data, p⟩, none⟩ = .ok (items, ⟨c, none⟩) ↔
      kind.size * count ≤ data.size - p ∧
        (items, WalkState.mk c none) = ([].reverse ++ Elements.numbersAt Γ kind data p count, ⟨⟨data, p + kind.size * count⟩, none⟩) :=
    Elements.times_number_eq_ok
  rw [← Elements.onMedium_unpackEach, Walk.onMedium_eq_ok] at walked
  refine walked.trans (and_congr_right ?_)
  intro enough
  have block : kind.decodeBlock order _ = _ := @Elements.decodeBlock_extract Γ _ _ _ _ enough
  rw [block]
  simp

theorem unpackEach_underflow {count : Nat} {done : List Value} {c : Cursor} {fault : Fault}
    (h : kind.unpackEach order count done c = .error fault) : fault.IsUnderflow := by
  induction count generalizing done c with
  | zero => cases h
  | succ count ih =>
    rw [unpackEach] at h
    cases first : kind.unpack order c with
    | ok result =>
      rw [first] at h
      exact ih h
    | error fault' =>
      rw [first] at h
      obtain rfl : fault' = fault := Except.error.inj h
      rw [unpack] at first
      cases taken : c.take kind.size with
      | ok result =>
        rw [taken] at first
        cases first
      | error reason =>
        rw [taken] at first
        cases first
        exact Cursor.take_underflow taken

/-- A block of numbers and the numbers one by one: both give the same and end at the same place, or bytes are missing for both. -/
theorem unpackBlock_or_underflow (kind : Number) (order : ByteOrder) (count : Nat) (c : Cursor) :
    (∃ result, kind.unpackBlock order count c = .ok result ∧ kind.unpackEach order count [] c = .ok result) ∨
      ∃ fault fault', kind.unpackBlock order count c = .error fault ∧ kind.unpackEach order count [] c = .error fault' ∧
        fault.IsUnderflow ∧ fault'.IsUnderflow := by
  obtain ⟨data, p⟩ := c
  by_cases enough : kind.size * count ≤ data.size - p
  · refine .inl ⟨_, ?_, unpackEach_eq_ok.mpr ⟨enough, rfl⟩⟩
    simp only [unpackBlock, Cursor.take, Bytes.slice, if_pos enough]
    rfl
  · have block : kind.unpackBlock order count ⟨data, p⟩ = .error (.bufferUnderflow p (kind.size * count) (data.size - p)) := by
      simp only [unpackBlock, Cursor.take, Bytes.slice, if_neg enough]
      rfl
    cases each : kind.unpackEach order count [] ⟨data, p⟩ with
    | ok result => exact absurd (unpackEach_eq_ok.mp each).1 enough
    | error fault => exact .inr ⟨_, fault, block, rfl, ⟨_, _, _, rfl⟩, unpackEach_underflow each⟩

/-! ## Writing -/

/-- Numbers are a run of bytes each, put in order, unless one of them has no bytes. Which runs they are does not depend on the order. -/
theorem packEach_runs (kind : Number) (values : List Value) :
    (∃ fault, ∀ order, kind.packEach order values #[] = .error fault) ∨
      ∃ runs : List (List UInt8), (∀ run ∈ runs, run.length = kind.size) ∧
        ∀ order : ByteOrder, kind.packEach order values #[] = .ok (runs.map order.arrange).flatten.toArray := by
  induction values with
  | nil => exact .inr ⟨[], by simp, fun order => rfl⟩
  | cons v rest ih =>
    cases word : kind.wordOf v with
    | error fault =>
      refine .inl ⟨fault, fun order => ?_⟩
      simp only [packEach, pack, word]
      rfl
    | ok n =>
      -- What comes behind the first number is what it is by itself.
      have behind : ∀ order : ByteOrder, kind.packEach order (v :: rest) #[] =
          (kind.packEach order rest #[]).map ((order.arrange (Bytes.ofWord kind.size n)).toArray ++ ·) := by
        intro order
        rw [← written_packEach, Array.append_empty, packEach, pack_eq, encode, word]
        show kind.packEach order rest (#[] ++ (order.arrange (Bytes.ofWord kind.size n)).toArray) = _
        rw [Array.empty_append]
      rcases ih with ⟨fault, fails⟩ | ⟨runs, widths, written⟩
      · refine .inl ⟨fault, fun order => ?_⟩
        rw [behind, fails]
        rfl
      · refine .inr ⟨Bytes.ofWord kind.size n :: runs, ?_, fun order => ?_⟩
        · intro run hrun
          rcases List.mem_cons.mp hrun with rfl | hrun
          · exact Bytes.length_ofWord _ _
          · exact widths run hrun
        · rw [behind, written]
          simp [Except.map]

end Number

/-! ## Arrays of numbers -/

namespace Elements

variable {Γ : Context} {run : Schema → Value → Packing Unit} {item : Candidate} {count : Count} {kind : Number}

/-- Without a count in front, an array of numbers is the numbers one by one. -/
theorem packArray_numbers (resolved : Γ.registry.resolve item = .ok (.number kind)) (free : ∀ number, count ≠ .prefixed number)
    {v : Value} (items : ofValue v = pure (v.list?.getD [])) :
    packArray Γ run item count v =
      Packing.onOutput (kind.packEach Γ.options.byteOrder (filled (v.list?.getD []) (count.lengthFor v))) := by
  have nothing : count.pack Γ (v.list?.getD []).length = pure () := by
    cases count with
    | prefixed number => exact absurd rfl (free number)
    | fixed _ | auto => rfl
  rw [packArray_eq items, nothing, pure_bind, pack_eq_packEach resolved, onOutput_packEach, length_filled]
  exact packEach_filled _ _ _

end Elements

namespace Registry

/-- An array of numbers, of fixed or free length, in either byte order: it fails for the same reason, or the bytes in one order are those
in the other, with the bytes of each number the other way around. -/
theorem packWith_flipped {r : Registry} {c item : Candidate} {count : Count} {kind : Number}
    (resolved : r.resolve c = .ok (.array item count)) (numbers : r.resolve item = .ok (.number kind))
    (free : ∀ number, count ≠ .prefixed number) (v : Value) (options : Options) :
    Both (Bytes.Flipped kind.size) (r.packWith c v (options.setByteOrder .little)) (r.packWith c v (options.setByteOrder .big)) := by
  rw [Codec.packWith_of_resolve resolved, Codec.packWith_of_resolve resolved]
  cases r.limits.depth with
  | zero => exact .stop _
  | succ depth =>
    have array : ∀ order : ByteOrder, Codec.packed ⟨r, options.setByteOrder order⟩ (depth + 1) (.array item count) v =
        (Elements.packArray ⟨r, options.setByteOrder order⟩ (Codec.pack ⟨r, options.setByteOrder order⟩ depth) item count v
          ⟨#[], none⟩).map fun result => result.2.medium := fun _ => rfl
    rw [array, array]
    rcases Elements.ofValue_cases v with items | ⟨fault, refused⟩
    · have written : ∀ order : ByteOrder,
          Elements.packArray ⟨r, options.setByteOrder order⟩ (Codec.pack ⟨r, options.setByteOrder order⟩ depth) item count v =
            Packing.onOutput (kind.packEach order (Elements.filled (v.list?.getD []) (count.lengthFor v))) :=
        fun _ => Elements.packArray_numbers numbers free items
      rw [written, written]
      rcases kind.packEach_runs (Elements.filled (v.list?.getD []) (count.lengthFor v)) with ⟨fault, fails⟩ | ⟨runs, widths, runs_of⟩
      · simp only [Packing.onOutput, fails]
        exact .stop _
      · simp only [Packing.onOutput, runs_of]
        have little : ByteOrder.little.arrange = id := rfl
        exact .ok ⟨runs, widths, by rw [little, List.map_id], rfl⟩
    · simp only [Elements.packArray, refused]
      exact .stop _

end Registry

namespace Number

/-- A block of numbers, encoded and decoded by functions of its own, and the numbers one by one are the same, for every kind and in either
byte order. Written behind any output, a block of `count` numbers is the first `count` values and null for each that is missing, one after
another, or the fault of the first one that cannot be written. Read from any cursor, a block of `count` numbers gives the values of `count`
numbers that are read one after another, and ends where they end, and where it fails so do they, because bytes are missing. So an array of
numbers without a count in front has the same bytes in either byte order, but that the bytes of each number are the other way around. -/
theorem block_eq_each (kind : Number) :
    (∀ order values count out, kind.packBlock order values count out = kind.packEach order (Elements.filled values count) out) ∧
    (∀ order count c,
      (∃ result, kind.unpackBlock order count c = .ok result ∧ kind.unpackEach order count [] c = .ok result) ∨
        ∃ fault fault', kind.unpackBlock order count c = .error fault ∧ kind.unpackEach order count [] c = .error fault' ∧
          fault.IsUnderflow ∧ fault'.IsUnderflow) ∧
    ∀ (r : Registry) c item count, r.resolve c = .ok (.array item count) → r.resolve item = .ok (.number kind) →
      (∀ number, count ≠ .prefixed number) → ∀ v (options : Options),
        Both (Bytes.Flipped kind.size) (r.packWith c v (options.setByteOrder .little)) (r.packWith c v (options.setByteOrder .big)) := by
  refine ⟨fun order values count out => packBlock_eq_packEach kind order values count out,
    fun order count c => unpackBlock_or_underflow kind order count c, ?_⟩
  intro r c item count resolved numbers free v options
  exact Registry.packWith_flipped resolved numbers free v options

/-- Three words, of which two are given, in either byte order. -/
theorem block_eq_each_words :
    Registry.standard.resolve (.name "word[3]") = .ok (.array (.name "word") (.fixed 3)) ∧
      Registry.standard.resolve (.name "word") = .ok (.number .uint16) ∧
      Registry.standard.packWith (.name "word[3]") (.list [.int 0x0201, .int 0x0403]) .littleEndian = .ok #[1, 2, 3, 4, 0, 0] ∧
      ∃ bytes, Registry.standard.packWith (.name "word[3]") (.list [.int 0x0201, .int 0x0403]) .bigEndian = .ok bytes ∧
        Bytes.Flipped 2 #[1, 2, 3, 4, 0, 0] bytes := by
  have array : Registry.standard.resolve (.name "word[3]") = .ok (.array (.name "word") (.fixed 3)) := rfl
  have word : Registry.standard.resolve (.name "word") = .ok (.number .uint16) := rfl
  have little : Registry.standard.packWith (.name "word[3]") (.list [.int 0x0201, .int 0x0403]) .littleEndian =
      .ok #[1, 2, 3, 4, 0, 0] :=
    calc Registry.standard.packWith (.name "word[3]") (.list [.int 0x0201, .int 0x0403]) .littleEndian
      _ = Registry.standard.packWith (.array (.name "word") (.fixed 3)) (.list [.int 0x0201, .int 0x0403]) .littleEndian :=
        Registry.packWith_congr array _ _
      _ = .ok #[1, 2, 3, 4, 0, 0] := rfl
  have orders := (block_eq_each .uint16).2.2 .standard _ _ _ array word nofun (.list [.int 0x0201, .int 0x0403]) .littleEndian
  have same : Options.littleEndian.setByteOrder .little = .littleEndian := rfl
  rw [same, little] at orders
  exact ⟨array, word, little, orders.exists_of_ok⟩

end Number

end WireLayout
