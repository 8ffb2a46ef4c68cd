import WireLayout.Proofs.ContextFree
import WireLayout.Proofs.Filling

/-!
# Footprints

A fixed footprint is what a schema takes of the medium: wherever it is packed, the output grows by that many bytes, and wherever it is
unpacked, the input moves on by that many (`Codec.Occupies`). The footprint is computed by itself, from the schema alone, so each kind of
schema that has a fixed one is checked against it: regions are filled up or cut, the fields of a union stay in their region, and elements
are as many as the count says. Of an extension it is taken on trust (`Schema.Trusted`).
-/

namespace WireLayout

/-! ## Steps that leave the medium as it is -/

namespace Walk

variable {μ α β : Type}

/-- Wherever the step succeeds, the medium is as before. -/
def KeepsMedium (step : Walk μ α) : Prop := ∀ s a s', step s = .ok (a, s') → s'.medium = s.medium

theorem Detached.keepsMedium {step : Walk μ α} (h : Detached step) : KeepsMedium step := by
  intro s a s' hrun
  have same := h s s
  rw [hrun] at same
  cases same
  rfl

theorem KeepsMedium.bind {step : Walk μ α} {next : α → Walk μ β} (h : KeepsMedium step) (hnext : ∀ a, KeepsMedium (next a)) :
    KeepsMedium (step >>= next) := by
  intro s b s' hrun
  obtain ⟨a, s₁, hstep, hrest⟩ := bind_eq_ok.mp hrun
  exact (hnext a s₁ b s' hrest).trans (h s a s₁ hstep)

theorem KeepsMedium.pure (a : α) : KeepsMedium (Pure.pure a : Walk μ α) := (Detached.pure a).keepsMedium

theorem KeepsMedium.ofExcept (result : Except Fault α) : KeepsMedium (Walk.ofExcept result : Walk μ α) := by
  cases result with
  | ok a => exact .pure a
  | error fault => exact fun _ _ _ hrun => nomatch hrun

theorem KeepsMedium.exitScope (kind : String) : KeepsMedium (Walk.exitScope kind : Walk μ Unit) := by
  rintro ⟨medium, scope⟩ a s' hrun
  cases scope with
  | none => cases hrun
  | some scope =>
    cases hrun
    rfl

/-- Whatever happens on another medium. -/
theorem KeepsMedium.aside (other : μ) (step : Walk μ α) : KeepsMedium (Walk.aside other step) := by
  intro s a s' hrun
  obtain ⟨_, _, -, ⟨⟩⟩ := Walk.aside_eq_ok.mp hrun
  rfl

theorem KeepsMedium.within {step : Walk μ α} (h : KeepsMedium step) (scope : Scope) : KeepsMedium (Walk.within scope step) := by
  intro s a s' hrun
  obtain ⟨b, inner, hstep, ⟨⟩⟩ := Walk.within_eq_ok.mp hrun
  exact h ⟨s.medium, some scope⟩ b inner hstep

end Walk

theorem Text.keepsMedium_ofValue (v : Value) : Walk.KeepsMedium (ofValue v) := by
  unfold ofValue
  split
  · exact .pure _
  · exact .pure _
  · exact fun _ _ _ hrun => nomatch hrun

theorem Packing.keepsMedium_collect (step : Packing Unit) : Walk.KeepsMedium (collect step) :=
  (Walk.KeepsMedium.aside _ _).bind fun _ => .pure _

theorem Body.keepsMedium_unpackFields {run : Candidate → Unpacking Value} (h : ∀ c, Walk.KeepsMedium (run c)) (entries : Keyed Candidate)
    (scope : Scope) : Walk.KeepsMedium (unpackFields run entries scope) := by
  induction entries generalizing scope with
  | nil => exact .pure _
  | cons entry rest ih =>
    obtain ⟨key, c⟩ := entry
    rw [unpackFields]
    split
    · exact ih _
    · exact ((h c).within scope).bind fun _ => ih _

/-! ## Writing -/

namespace Packing

variable {α : Type} {m n : Nat} {Γ : Context}

/-- Wherever the step succeeds, it has put that many bytes behind the output. -/
def Writes (n : Nat) (step : Packing Unit) : Prop :=
  ∀ s s', step s = .ok ((), s') → ∃ bytes : Bytes, bytes.size = n ∧ s'.medium = s.medium ++ bytes

theorem Writes.stop (stop : Stop) : Writes n (fun _ => .error stop) := fun _ _ hrun => nomatch hrun

theorem Writes.seq {step : Packing Unit} {next : Unit → Packing Unit} (h : Writes m step) (hnext : Writes n (next ())) :
    Writes (m + n) (step >>= next) := by
  intro s s' hrun
  obtain ⟨⟨⟩, s₁, hstep, hrest⟩ := Walk.bind_eq_ok.mp hrun
  obtain ⟨bytes, hbytes, hout⟩ := h s s₁ hstep
  obtain ⟨rest, hsize, hbehind⟩ := hnext s₁ s' hrest
  refine ⟨bytes ++ rest, ?_, ?_⟩
  · rw [Array.size_append, hbytes, hsize]
  · rw [hbehind, hout, Array.append_assoc]

/-- What leaves the output as it is may come first. -/
theorem Writes.after {step : Packing α} {next : α → Packing Unit} (h : Walk.KeepsMedium step) (hnext : ∀ a, Writes n (next a)) :
    Writes n (step >>= next) := by
  intro s s' hrun
  obtain ⟨a, s₁, hstep, hrest⟩ := Walk.bind_eq_ok.mp hrun
  rw [← h s a s₁ hstep]
  exact hnext a s₁ s' hrest

theorem Writes.nothing {step : Packing Unit} (h : Walk.KeepsMedium step) : Writes 0 step := by
  intro s s' hrun
  exact ⟨#[], rfl, by rw [h s () s' hrun, Array.append_empty]⟩

theorem Writes.emit (bytes : Bytes) : Writes bytes.size (emit bytes) := by
  rintro ⟨out, scope⟩ s' hrun
  cases hrun
  exact ⟨bytes, rfl, rfl⟩

theorem Writes.region (n : Nat) (bytes : Bytes) : Writes n (Region.pack Γ (.fixed n) bytes) := by
  have filled : Writes (bytes.fit n).size (Packing.emit (bytes.fit n)) := .emit _
  rwa [Bytes.size_fit] at filled

theorem Writes.number (kind : Number) (v : Value) : Writes kind.size (number Γ kind v) := by
  rintro ⟨out, scope⟩ s' hrun
  simp only [Packing.number, onOutput, Number.pack_eq] at hrun
  cases encoded : kind.encode Γ.options.byteOrder v with
  | error fault =>
    rw [encoded] at hrun
    cases hrun
  | ok run =>
    rw [encoded] at hrun
    cases hrun
    exact ⟨run.toArray, Number.length_of_encode encoded, rfl⟩

theorem Writes.text (n : Nat) (v : Value) : Writes n (Text.pack Γ (.fixed n) v) :=
  .after (Text.keepsMedium_ofValue v) fun _ => .after (.ofExcept _) fun _ => .region n _

theorem Writes.terminatedText (n : Nat) (v : Value) : Writes n (Text.packTerminated Γ (.fixed n) v) :=
  .after (Text.keepsMedium_ofValue v) fun _ => .after (.ofExcept _) fun _ => .region n _

theorem Writes.packEach {step : Value → Packing Unit} (h : ∀ v, Writes n (step v)) (count : Nat) (items : List Value) :
    Writes (n * count) (Elements.packEach step count items) := by
  induction count generalizing items with
  | zero => exact .nothing (.pure ())
  | succ count ih =>
    rw [Elements.packEach_succ, Nat.mul_succ, Nat.add_comm]
    exact (h _).seq (ih _)

/-- As many elements as the count says or the value has, and nothing else when no count stands in front of them. -/
theorem Writes.array {run : Schema → Value → Packing Unit} {item : Candidate} {schema : Schema}
    (resolved : Γ.registry.resolve item = .ok schema) (h : ∀ v, Writes n (Elements.writeOne Γ run schema v)) {count : Count}
    (bare : ∀ c, count ≠ .prefixed c) (v : Value) : Writes (n * count.lengthFor v) (Elements.packArray Γ run item count v) := by
  rcases Elements.ofValue_cases v with hitems | ⟨fault, hitems⟩
  · have uncounted : count.pack Γ (v.list?.getD []).length = pure () := by
      cases count with
      | prefixed c => exact absurd rfl (bare c)
      | _ => rfl
    rw [Elements.packArray_eq hitems, uncounted, pure_bind, Elements.pack_eq_packEach resolved]
    exact .packEach h _ _
  · rw [Elements.packArray, hitems]
    exact .stop _

/-- Laying bytes over a region leaves it as long as it is. -/
theorem size_overlayFields {run : Candidate → Value → Packing Unit} {v : Value} {entries : Keyed Candidate} {scope : Scope}
    {region laid : Bytes} {s s' : WalkState Bytes} (h : Body.overlayFields run v entries scope region s = .ok (laid, s')) :
    laid.size = region.size := by
  induction entries generalizing scope region s with
  | nil =>
    cases h
    rfl
  | cons entry rest ih =>
    obtain ⟨key, c⟩ := entry
    rw [Body.overlayFields] at h
    split at h
    · cases h
      rfl
    · cases present : v.get? key with
      | none =>
        rw [present] at h
        exact ih h
      | some content =>
        rw [present] at h
        obtain ⟨⟨written, inner⟩, s₁, -, hrest⟩ := Walk.bind_eq_ok.mp h
        exact (ih hrest).trans (Bytes.size_overwrite ..)

theorem Writes.union (run : Candidate → Value → Packing Unit) (layout : Layout) (n : Nat) (v : Value) :
    Writes n (Body.packUnion run layout n v) := by
  refine .after (.ofExcept _) fun _ => ?_
  intro s s' hrun
  obtain ⟨region, s₁, hlaid, hemit⟩ := Walk.bind_eq_ok.mp hrun
  obtain ⟨bytes, hbytes, hout⟩ := Writes.emit region s₁ s' hemit
  refine ⟨bytes, ?_, ?_⟩
  · rw [hbytes, size_overlayFields hlaid, Bytes.zeros, Array.size_replicate]
  · rw [hout, (Body.detached_overlayFields run v _ _ _).keepsMedium s region s₁ hlaid]

theorem Writes.transformed (run : Schema → Value → Packing Unit) (encode : Transcoder) (inner : Candidate) (n : Nat) (v : Value) :
    Writes n (Transform.pack Γ run encode inner (.fixed n) v) :=
  .after (keepsMedium_collect _) fun _ => .after (.ofExcept _) fun _ => .region n _

end Packing

/-! ## Reading -/

namespace Unpacking

variable {α β : Type} {m n : Nat} {Γ : Context}

/-- Wherever the step succeeds, it has moved the input on by that many bytes. -/
def Advances (n : Nat) (step : Unpacking α) : Prop :=
  ∀ s a s', step s = .ok (a, s') → s'.medium.position = s.medium.position + n

theorem Advances.stop (stop : Stop) : Advances n (fun _ => .error stop : Unpacking α) := fun _ _ _ hrun => nomatch hrun

theorem Advances.bind {step : Unpacking α} {next : α → Unpacking β} (h : Advances m step) (hnext : ∀ a, Advances n (next a)) :
    Advances (m + n) (step >>= next) := by
  intro s b s' hrun
  obtain ⟨a, s₁, hstep, hrest⟩ := Walk.bind_eq_ok.mp hrun
  rw [hnext a s₁ b s' hrest, h s a s₁ hstep, Nat.add_assoc]

theorem Advances.nothing {step : Unpacking α} (h : Walk.KeepsMedium step) : Advances 0 step := by
  intro s a s' hrun
  rw [h s a s' hrun, Nat.add_zero]

/-- What leaves the input as it is may come behind. -/
theorem Advances.before {step : Unpacking α} {next : α → Unpacking β} (h : Advances n step)
    (hnext : ∀ a, Walk.KeepsMedium (next a)) : Advances n (step >>= next) := h.bind fun a => .nothing (hnext a)

theorem Advances.take (n : Nat) : Advances n (take n) := by
  rintro ⟨⟨data, p⟩, scope⟩ bytes s' hrun
  obtain ⟨-, h⟩ := take_eq_ok.mp hrun
  cases h
  rfl

theorem Advances.number (kind : Number) : Advances kind.size (number Γ kind) := by
  rintro ⟨⟨data, p⟩, scope⟩ v s' hrun
  obtain ⟨-, h⟩ := Elements.number_eq_ok.mp hrun
  cases h
  rfl

theorem Advances.text (n : Nat) : Advances n (Text.unpack Γ (.fixed n)) := by
  rw [Text.unpack, Region.unpack_fixed]
  exact (Advances.take n).before fun _ => (Walk.KeepsMedium.ofExcept _).bind fun _ => .pure _

theorem Advances.terminatedText (n : Nat) : Advances n (Text.unpackTerminated Γ (.fixed n)) := by
  have sized : Count.fixed n ≠ .auto := nofun
  rw [Text.unpackTerminated_region sized, Region.unpack_fixed]
  exact (Advances.take n).before fun _ => (Walk.KeepsMedium.ofExcept _).bind fun _ => .pure _

theorem Advances.times {step : Unpacking Value} (h : Advances n step) (count : Nat) (done : List Value) :
    Advances (n * count) (Elements.times step count done) := by
  induction count generalizing done with
  | zero => exact .nothing (.pure _)
  | succ count ih =>
    rw [Elements.times_succ, Nat.mul_succ, Nat.add_comm]
    exact h.bind fun _ => ih _

theorem Advances.array {run : Schema → Unpacking Value} {item : Candidate} {schema : Schema}
    (resolved : Γ.registry.resolve item = .ok schema) (h : Advances n (Elements.readOne Γ run schema)) (count : Nat) :
    Advances (n * count) (Elements.unpackArray Γ run item (.fixed count)) := by
  rw [Elements.unpackArray_fixed]
  intro s v s' hrun
  obtain ⟨items, htimes, -⟩ := (Elements.unpack_eq_ok resolved).mp hrun
  exact h.times count [] s items s' htimes

/-- The fields of a union read from a copy of their region. -/
theorem Advances.union (run : Candidate → Unpacking Value) (layout : Layout) (n : Nat) : Advances n (Body.unpackUnion run layout n) := by
  refine (Advances.take n).before fun window => (Body.keepsMedium_unpackFields (fun c => ?_) _ _).bind fun _ => .pure _
  exact (Walk.KeepsMedium.aside _ _).bind fun _ => .pure _

theorem Advances.transformed (run : Schema → Unpacking Value) (decode : Transcoder) (inner : Candidate) (n : Nat) :
    Advances n (Transform.unpack Γ run decode inner (.fixed n)) := by
  rw [Transform.unpack, Region.unpack_fixed]
  exact (Advances.take n).before fun _ => (Walk.KeepsMedium.ofExcept _).bind fun _ => (Walk.KeepsMedium.aside _ _).bind fun _ => .pure _

end Unpacking

/-! ## Schemas -/

/-- Whatever it packs and unpacks, and wherever, the schema takes that many bytes. -/
structure Codec.Occupies (Γ : Context) (schema : Schema) (n : Nat) : Prop where
  writes (depth : Nat) (v : Value) : Packing.Writes n (pack Γ depth schema v)
  advances (depth : Nat) : Unpacking.Advances n (unpack Γ depth schema)

/-- The extension, if there is one, that the footprint of the schema is taken from has the footprint that it declares. -/
def Schema.Trusted (Γ : Context) : Schema → Prop
  | .array (.schema item) (.fixed _) => item.Trusted Γ
  | .custom extension => ∀ n, extension.footprint = .fixed n → Codec.Occupies Γ (.custom extension) n
  | _ => True

namespace Codec

variable {Γ : Context} {schema : Schema} {n : Nat}

/-- What a schema takes is seen at one level, where it does not depend on what runs inside. -/
theorem Occupies.of_step (writes : ∀ run v, Packing.Writes n (packStep Γ run schema v))
    (advances : ∀ run, Unpacking.Advances n (unpackStep Γ run schema)) : Occupies Γ schema n where
  writes depth v := by
    cases depth with
    | zero => exact .stop _
    | succ depth => exact writes _ v
  advances depth := by
    cases depth with
    | zero => exact .stop _
    | succ depth => exact advances _

theorem Occupies.writeOne (h : Occupies Γ schema n) (depth : Nat) (v : Value) :
    Packing.Writes n (Elements.writeOne Γ (pack Γ depth) schema v) := by
  cases schema with
  | number kind => exact h.writes 1 v
  | _ => exact h.writes depth v

theorem Occupies.readOne (h : Occupies Γ schema n) (depth : Nat) : Unpacking.Advances n (Elements.readOne Γ (unpack Γ depth) schema) := by
  cases schema with
  | number kind => exact h.advances 1
  | _ => exact h.advances depth

/-- An array of fixed length takes what its elements take. -/
theorem Occupies.array (h : Occupies Γ schema n) (count : Nat) : Occupies Γ (.array (.schema schema) (.fixed count)) (n * count) where
  writes depth v := by
    cases depth with
    | zero => exact .stop _
    | succ depth =>
      have bare : ∀ c, Count.fixed count ≠ .prefixed c := nofun
      exact .array rfl (h.writeOne depth) bare v
  advances depth := by
    cases depth with
    | zero => exact .stop _
    | succ depth => exact .array rfl (h.readOne depth) count

/-- By recursion on the schema, as the footprint is computed. Only an array takes what something inside takes: a union and a transformed
region are as long as they say. -/
theorem occupies_footprint : (schema : Schema) → {n : Nat} → schema.footprint = .fixed n → schema.Trusted Γ → Occupies Γ schema n
  | .number kind, _, rfl, _ => .of_step (fun _ => .number kind) fun _ => .number kind
  | .array (.schema item) (.fixed count), n, fixed, trusted => by
    rw [Schema.footprint] at fixed
    cases inside : item.footprint with
    | dynamic =>
      rw [inside] at fixed
      cases fixed
    | fixed size =>
      rw [inside] at fixed
      cases fixed
      exact (occupies_footprint item inside trusted).array count
  | .string (.fixed n), _, rfl, _ => .of_step (fun _ => .text n) fun _ => .text n
  | .cstring (.fixed n), _, rfl, _ => .of_step (fun _ => .terminatedText n) fun _ => .terminatedText n
  | .union layout n, _, rfl, _ => .of_step (fun _ => .union _ layout n) fun _ => .union _ layout n
  | .computed _ _, _, rfl, _ => .of_step (fun _ _ => .nothing (.pure ())) fun _ => .nothing (.pure _)
  | .exit, _, rfl, _ =>
    .of_step (fun _ _ => .nothing (.exitScope "exit")) fun _ => .nothing ((Walk.KeepsMedium.exitScope "exit").bind fun _ => .pure _)
  | .parse encode decode inner (.fixed n), _, rfl, _ =>
    .of_step (fun _ => .transformed _ encode inner n) fun _ => .transformed _ decode inner n
  | .custom _, n, fixed, trusted => trusted n fixed

/-- Declared sizes are true. Of a schema with a fixed footprint, every value that is packed, in whatever body and behind whatever output,
is that many bytes more, and what was there stays; every value that is unpacked, from whatever input, moves it on by that many bytes. -/
theorem footprint_exact {schema : Schema} {n : Nat} (fixed : schema.footprint = .fixed n) (trusted : schema.Trusted Γ) :
    (∀ depth v s s', pack Γ depth schema v s = .ok ((), s') → ∃ bytes : Bytes, bytes.size = n ∧ s'.medium = s.medium ++ bytes) ∧
    (∀ depth s v s', unpack Γ depth schema s = .ok (v, s') → s'.medium.position = s.medium.position + n) ∧
    ∀ c v bytes, Γ.registry.resolve c = .ok schema → Γ.registry.packWith c v Γ.options = .ok bytes → bytes.size = n := by
  have occupies : Occupies Γ schema n := occupies_footprint schema fixed trusted
  refine ⟨occupies.writes, occupies.advances, ?_⟩
  intro c v bytes resolved packed
  rw [packWith_of_resolve resolved] at packed
  obtain ⟨scope, hrun⟩ := packed_eq_ok.mp packed
  obtain ⟨written, hsize, hout⟩ := occupies.writes _ v _ _ hrun
  dsimp only at hout
  rw [hout, Array.size_append, Array.size_empty, Nat.zero_add, hsize]

end Codec

/-! ## Samples -/

namespace Presence

/-- One byte, which says whether there is a value. -/
def extension : Extension :=
  .mk "presence" (.fixed 1) (.take 1 fun bytes => .done (if bytes == #[0] then .null else .int 1)) fun v =>
    .emit #[if v.isNull then 0 else 1] .done

/-- Two rows of three. -/
def rows : Schema := .array (.schema (.array (.schema (.custom extension)) (.fixed 3))) (.fixed 2)

theorem occupies (Γ : Context) : Codec.Occupies Γ (.custom extension) 1 :=
  .of_step (fun _ _ => (Packing.Writes.emit _).seq (.nothing (.pure ()))) fun _ => (Unpacking.Advances.take 1).before fun _ => .pure _

/-- Of the first row one value is missing, of the second one all are. -/
theorem footprint_exact_rows :
    rows.footprint = .fixed 6 ∧ rows.Trusted ⟨Registry.standard, .littleEndian⟩ ∧
      Registry.standard.packWith (.schema rows) (.list [.list [.null, .int 5]]) .littleEndian = .ok #[0, 1, 0, 0, 0, 0] ∧
      (#[0, 1, 0, 0, 0, 0] : Bytes).size = 6 := by
  have trusted : rows.Trusted ⟨Registry.standard, .littleEndian⟩ := by
    intro n declared
    cases declared
    exact occupies _
  have packed : Registry.standard.packWith (.schema rows) (.list [.list [.null, .int 5]]) .littleEndian = .ok #[0, 1, 0, 0, 0, 0] := rfl
  exact ⟨rfl, trusted, packed, (Codec.footprint_exact rfl trusted).2.2 (.schema rows) _ _ rfl packed⟩

end Presence

end WireLayout
