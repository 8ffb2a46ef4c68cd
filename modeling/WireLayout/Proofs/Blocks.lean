import WireLayout.Proofs.Input
import WireLayout.Proofs.Output

/-!
# Blocks of numbers

Numbers whose bytes are in memory order are moved as one block, all others one by one. It makes no difference: as many numbers as are
asked for are written the same either way (`packNumbers_eq`), and are read the same either way where there are enough bytes
(`unpackNumbers_eq_ok`). So the elements of an array are run one by one, whatever they are (`pack_eq`, `unpack_eq_ok`).
-/

namespace WireLayout

namespace Number

variable {kind : Number} {order : ByteOrder}

theorem length_of_encode {v : Value} {run : List UInt8} (h : kind.encode order v = .ok run) : run.length = kind.size := by
  simp only [encode] at h
  cases hword : kind.wordOf v with
  | error fault =>
    rw [hword] at h
    cases h
  | ok word =>
    rw [hword] at h
    cases h
    rw [ByteOrder.length_arrange, Bytes.length_ofWord]

theorem size_of_packEach {values : List Value} {out out' : Bytes} (h : kind.packEach order values out = .ok out') :
    out'.size = out.size + kind.size * values.length := by
  induction values generalizing out with
  | nil =>
    cases h
    rfl
  | cons v rest ih =>
    rw [packEach, pack_eq] at h
    cases hv : kind.encode order v with
    | error fault =>
      rw [hv] at h
      cases h
    | ok run =>
      rw [hv] at h
      have hsize := ih h
      have hrun : (out ++ run.toArray).size = out.size + kind.size :=
        Array.size_append.trans (congrArg (out.size + ·) (length_of_encode hv))
      rw [hsize, hrun, List.length_cons, Nat.mul_succ]
      omega

/-- A block of exactly as many numbers as there are has nothing to fill up. -/
theorem packBlock_length (kind : Number) (order : ByteOrder) (values : List Value) (out : Bytes) :
    kind.packBlock order values values.length out = kind.packEach order values out := by
  rw [packBlock_eq, List.take_length]
  cases h : kind.packEach order values out with
  | error fault => rfl
  | ok out' =>
    show Except.ok (out' ++ Bytes.zeros (out.size + kind.size * values.length - out'.size)) = Except.ok out'
    rw [size_of_packEach h, Nat.sub_self]
    exact congrArg Except.ok Array.append_empty

end Number

namespace Elements

variable {Γ : Context} {kind : Number}

theorem onOutput_packEach (Γ : Context) (kind : Number) (values : List Value) :
    Packing.onOutput (kind.packEach Γ.options.byteOrder values) = packEach (Packing.number Γ kind) values.length values := by
  induction values with
  | nil => rfl
  | cons v rest ih =>
    rw [List.length_cons, packEach_succ, List.head?_cons, Option.getD_some, List.tail_cons, ← ih]
    funext s
    rw [Walk.bind_apply]
    simp only [Packing.number, Packing.onOutput, Number.packEach]
    cases kind.pack Γ.options.byteOrder v s.medium <;> rfl

/-- All numbers of a list are written as they are written one by one. -/
theorem packNumbers_eq (Γ : Context) (kind : Number) (values : List Value) :
    packNumbers Γ kind values values.length = packEach (Packing.number Γ kind) values.length values := by
  rw [packNumbers]
  split
  · rw [← onOutput_packEach]
    refine congrArg Packing.onOutput (funext ?_)
    intro out
    exact Number.packBlock_length kind _ values out
  · rfl

/-- The numbers of a kind that lie one after another from a position on. -/
def numbersAt (Γ : Context) (kind : Number) (data : Bytes) (p count : Nat) : List Value :=
  (List.range count).map fun i =>
    kind.decode Γ.options.byteOrder (data.extract (p + i * kind.size) (p + i * kind.size + kind.size)).toList

theorem numbersAt_succ (Γ : Context) (kind : Number) (data : Bytes) (p count : Nat) :
    numbersAt Γ kind data p (count + 1) =
      kind.decode Γ.options.byteOrder (data.extract p (p + kind.size)).toList :: numbersAt Γ kind data (p + kind.size) count := by
  rw [numbersAt, numbersAt, List.range_succ_eq_map, List.map_cons, List.map_map, Nat.zero_mul, Nat.add_zero]
  refine congrArg (_ :: ·) (List.map_congr_left ?_)
  intro i _
  have hstart : p + (i + 1) * kind.size = p + kind.size + i * kind.size := by
    rw [Nat.succ_mul]
    omega
  show kind.decode _ (data.extract (p + (i + 1) * kind.size) _).toList = _
  rw [hstart]

theorem number_eq_ok {data : Bytes} {p : Nat} {scope : Option Scope} {r : Value × WalkState Cursor} :
    Unpacking.number Γ kind ⟨⟨data, p⟩, scope⟩ = .ok r ↔
      kind.size ≤ data.size - p ∧
        r = (kind.decode Γ.options.byteOrder (data.extract p (p + kind.size)).toList, ⟨⟨data, p + kind.size⟩, scope⟩) := by
  rw [Unpacking.number_eq, Walk.bind_eq_ok]
  constructor
  · rintro ⟨raw, s, htake, hr⟩
    obtain ⟨hle, hraw⟩ := Unpacking.take_eq_ok.mp htake
    cases hraw
    cases hr
    exact ⟨hle, rfl⟩
  · rintro ⟨hle, rfl⟩
    exact ⟨_, _, Unpacking.take_eq_ok.mpr ⟨hle, rfl⟩, rfl⟩

/-- Numbers are read one by one exactly when there are bytes for all of them. -/
theorem times_number_eq_ok {count : Nat} {done : List Value} {data : Bytes} {p : Nat} {scope : Option Scope}
    {r : List Value × WalkState Cursor} :
    times (Unpacking.number Γ kind) count done ⟨⟨data, p⟩, scope⟩ = .ok r ↔
      kind.size * count ≤ data.size - p ∧
        r = (done.reverse ++ numbersAt Γ kind data p count, ⟨⟨data, p + kind.size * count⟩, scope⟩) := by
  induction count generalizing done p with
  | zero =>
    have hnone : numbersAt Γ kind data p 0 = [] := rfl
    rw [hnone, List.append_nil, Nat.mul_zero, Nat.add_zero]
    constructor
    · intro h
      cases h
      exact ⟨Nat.zero_le _, rfl⟩
    · rintro ⟨-, rfl⟩
      rfl
  | succ count ih =>
    have hend : p + kind.size + kind.size * count = p + kind.size * (count + 1) := by
      rw [Nat.mul_succ]
      omega
    rw [times_succ, Walk.bind_eq_ok]
    constructor
    · rintro ⟨v, s, hv, hrest⟩
      obtain ⟨hle, hfirst⟩ := number_eq_ok.mp hv
      cases hfirst
      obtain ⟨hle', rfl⟩ := ih.mp hrest
      refine ⟨by rw [Nat.mul_succ]; omega, ?_⟩
      rw [hend, numbersAt_succ, List.reverse_cons, List.append_assoc]
      rfl
    · rintro ⟨hle, rfl⟩
      rw [Nat.mul_succ] at hle
      refine ⟨_, _, number_eq_ok.mpr ⟨by omega, rfl⟩, ih.mpr ⟨by omega, ?_⟩⟩
      rw [hend, numbersAt_succ, List.reverse_cons, List.append_assoc]
      rfl

/-- The numbers of a block are those that lie one after another in it. -/
theorem decodeBlock_extract {data : Bytes} {p count : Nat} (enough : kind.size * count ≤ data.size - p) :
    kind.decodeBlock Γ.options.byteOrder (data.extract p (p + kind.size * count)) = numbersAt Γ kind data p count := by
  have whole : (data.extract p (p + kind.size * count)).size / kind.size = count := by
    have hsize : (data.extract p (p + kind.size * count)).size = kind.size * count := by
      rw [Array.size_extract]
      omega
    rw [hsize, Nat.mul_div_cancel_left _ kind.size_pos]
  rw [Number.decodeBlock_eq, Bytes.chunks, whole, List.map_map]
  refine List.map_congr_left ?_
  intro i hi
  have hend : i * kind.size + kind.size ≤ kind.size * count := by
    rw [← Nat.succ_mul, Nat.mul_comm kind.size]
    exact Nat.mul_le_mul_right _ (List.mem_range.mp hi)
  have hinside : min (p + (i * kind.size + kind.size)) (p + kind.size * count) = p + i * kind.size + kind.size := by omega
  rw [Function.comp_apply, Array.extract_extract, hinside]

/-- A block of numbers is read exactly when its numbers are read one by one. -/
theorem unpackNumbers_eq_ok {count : Nat} {s : WalkState Cursor} {r : List Value × WalkState Cursor} :
    unpackNumbers Γ kind (some count) s = .ok r ↔ times (Unpacking.number Γ kind) count [] s = .ok r := by
  obtain ⟨⟨data, p⟩, scope⟩ := s
  rw [unpackNumbers_some]
  split
  · rw [times_number_eq_ok, Walk.bind_eq_ok]
    constructor
    · rintro ⟨block, s, htake, hr⟩
      obtain ⟨hle, hblock⟩ := Unpacking.take_eq_ok.mp htake
      cases hblock
      cases hr
      rw [decodeBlock_extract hle]
      exact ⟨hle, rfl⟩
    · rintro ⟨hle, rfl⟩
      refine ⟨_, _, Unpacking.take_eq_ok.mpr ⟨hle, rfl⟩, ?_⟩
      rw [decodeBlock_extract hle]
      rfl
  · exact Iff.rfl

/-! ## Elements one by one -/

/-- Reads one element: a number by itself, any other schema by the function that reads schemas. -/
def readOne (Γ : Context) (run : Schema → Unpacking Value) : Schema → Unpacking Value
  | .number kind => Unpacking.number Γ kind
  | schema => run schema

/-- Writes one element. -/
def writeOne (Γ : Context) (run : Schema → Value → Packing Unit) : Schema → Value → Packing Unit
  | .number kind => Packing.number Γ kind
  | schema => run schema

/-- With some depth left, a number is an element like any other. -/
theorem readOne_unpack (depth : Nat) (schema : Schema) :
    readOne Γ (Codec.unpack Γ (depth + 1)) schema = Codec.unpack Γ (depth + 1) schema := by
  cases schema <;> rfl

theorem writeOne_pack (depth : Nat) (schema : Schema) :
    writeOne Γ (Codec.pack Γ (depth + 1)) schema = Codec.pack Γ (depth + 1) schema := by
  cases schema <;> rfl

/-- All elements of a list are written one by one. -/
theorem pack_eq {run : Schema → Value → Packing Unit} {item : Candidate} {schema : Schema}
    (hitem : Γ.registry.resolve item = .ok schema) (items : List Value) :
    pack Γ run item items items.length = packEach (writeOne Γ run schema) items.length items := by
  rw [pack, Walk.resolve_bind_ok hitem]
  cases schema with
  | number kind => exact packNumbers_eq Γ kind items
  | _ => rfl

/-- An array with its count in front is the count, and then the elements. -/
theorem packArray_prefixed (run : Schema → Value → Packing Unit) (item c : Candidate) (items : List Value) :
    packArray Γ run item (.prefixed c) (.list items) =
      Count.pack Γ (.prefixed c) items.length >>= fun _ => pack Γ run item items items.length := rfl

/-- A known number of elements is read exactly when they are read one by one. -/
theorem unpack_eq_ok {run : Schema → Unpacking Value} {item : Candidate} {schema : Schema}
    (hitem : Γ.registry.resolve item = .ok schema) {count : Nat} {s : WalkState Cursor} {r : Value × WalkState Cursor} :
    unpack Γ run item (some count) s = .ok r ↔
      ∃ items, times (readOne Γ run schema) count [] s = .ok (items, r.2) ∧ r.1 = .list items := by
  obtain ⟨v, s'⟩ := r
  have hlist : ∀ step : Unpacking (List Value), (step >>= fun items => pure (Value.list items)) s = .ok (v, s') ↔
      ∃ items, step s = .ok (items, s') ∧ v = .list items := by
    intro step
    rw [Walk.bind_eq_ok]
    constructor
    · rintro ⟨items, s₁, hitems, hv⟩
      cases hv
      exact ⟨items, hitems, rfl⟩
    · rintro ⟨items, hitems, rfl⟩
      exact ⟨items, s', hitems, rfl⟩
  rw [unpack, Walk.resolve_bind_ok hitem]
  cases schema with
  | number kind =>
    refine (hlist _).trans (exists_congr fun items => and_congr_left fun _ => ?_)
    exact unpackNumbers_eq_ok
  | _ => exact hlist _

end Elements

end WireLayout
