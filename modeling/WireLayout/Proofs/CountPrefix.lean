import WireLayout.Proofs.Recovery

/-!
# Counts in front

Arrays, texts, zero-terminated texts and transformed regions may have their count in front, as a number. Whatever the schema, writing
is writing the count and then the elements or bytes (`AmountsTo.pack_eq`), and reading starts with the count
(`unpack_countInFront`). So what holds of the count holds of them all (`pack_countInFront`): an integer kind stores it exactly or refuses it,
in front of anything else, and takes no negative number for a count.
-/

namespace WireLayout

open Packing

/-- The number that stands in front as the count. -/
def Schema.countInFront? : Schema → Option Candidate
  | array _ (.prefixed c) | string (.prefixed c) | cstring (.prefixed c) | parse _ _ _ (.prefixed c) => some c
  | _ => none

namespace Count

variable {Γ : Context} {c : Candidate} {kind : Number}

theorem unpack_prefixed (Γ : Context) (c : Candidate) : unpack Γ (.prefixed c) = prefixed? Γ c >>= fun n => pure (some n) := by
  simp [unpack, prefixed?]

/-- A count that its kind admits is written as a number of that kind, from which the same count is read. -/
theorem exists_front (hc : Γ.registry.resolve c = .ok (.number kind)) (hint : kind.isFloat = false) {k : Nat}
    (hk : k ≤ kind.maxCount) :
    ∃ front : Bytes, front.size = kind.size ∧ RoundTrips none (prefixed? Γ c) (pack Γ (.prefixed c) k) k front false := by
  obtain ⟨front, htrip⟩ := roundTrips_count none hc hint hk
  refine ⟨front, ?_, htrip⟩
  -- Reading the count alone moves past all of it, and past one number.
  have hread := htrip.reads front 0 none (.none none) (.self front)
  rw [prefixed?_eq hc] at hread
  obtain ⟨v, s, hnumber, hcount⟩ := Walk.bind_eq_ok.mp hread
  obtain ⟨-, hnumber⟩ := Elements.number_eq_ok.mp hnumber
  obtain ⟨-, hend⟩ := ofValue_eq_ok.mp hcount
  cases hnumber
  simpa using congrArg (fun s : WalkState Cursor => s.medium.position) hend

/-- A count that its kind does not admit is refused before anything is written. -/
theorem pack_overflow (hc : Γ.registry.resolve c = .ok (.number kind)) {k : Nat} (hk : kind.maxCount < k) (s : WalkState Bytes) :
    pack Γ (.prefixed c) k s = .error (.fault (.countOverflow k kind.name kind.maxCount)) := by
  rw [pack, Walk.resolveNumber_eq_pure hc, pure_bind, Packing.onOutput, Number.packCount, if_pos hk]

/-- A negative number is no count. -/
theorem prefixed?_negative (hc : Γ.registry.resolve c = .ok (.number kind)) {data : Bytes} {p : Nat}
    (hle : kind.size ≤ data.size - p) {n : Int64}
    (hn : kind.decode Γ.options.byteOrder (data.extract p (p + kind.size)).toList = .int n) (hneg : n.toInt < 0)
    (u : Option Scope) : prefixed? Γ c ⟨⟨data, p⟩, u⟩ = .error (.fault (.typeMismatch "count" "integer")) := by
  have hnumber := (@Elements.number_eq_ok Γ kind data p u _).mpr ⟨hle, rfl⟩
  have hcount : (Value.int n).count? = none := if_neg (Int.not_le_of_gt hneg)
  rw [prefixed?_eq hc, Walk.bind_apply, hnumber, hn]
  dsimp only
  rw [ofValue, hcount]
  rfl

end Count

namespace Codec

variable {Γ : Context}

/-- What is stored of a value behind a count: `k` elements or bytes, which the step `rest` writes. Before it does, a transformed region
runs its inner schema on an output of its own, which leaves the body around as `scope'`. -/
inductive AmountsTo (Γ : Context) (run : Schema → Value → Packing Unit) (c : Candidate) (scope : Option Scope) :
    Schema → Value → (k : Nat) → (rest : Packing Unit) → (scope' : Option Scope) → Prop where
  | array {item : Candidate} {v : Value} {items : List Value} (elements : Elements.ofValue v = pure items) :
      AmountsTo Γ run c scope (.array item (.prefixed c)) v items.length (Elements.pack Γ run item items items.length) scope
  | string {v : Value} {text : String} {bytes : Bytes} (isText : Text.ofValue v = pure text)
      (encoded : Γ.options.encoding.encode? text = some bytes) :
      AmountsTo Γ run c scope (.string (.prefixed c)) v bytes.size (emit bytes) scope
  /-- The terminator counts. -/
  | cstring {v : Value} {text : String} {bytes : Bytes} (isText : Text.ofValue v = pure text)
      (encoded : Γ.options.encoding.encode? text = some bytes) :
      AmountsTo Γ run c scope (.cstring (.prefixed c)) v (bytes.size + 1) (emit (bytes.push 0)) scope
  | parse {encode decode : Transcoder} {inner : Candidate} {schema : Schema} {v : Value} {plain bytes : Bytes}
      {scope' : Option Scope} (resolved : Γ.registry.resolve inner = .ok schema)
      (written : run schema v ⟨#[], scope⟩ = .ok ((), ⟨plain, scope'⟩)) (encoded : encode.apply plain = .ok bytes) :
      AmountsTo Γ run c scope (.parse encode decode inner (.prefixed c)) v bytes.size (emit bytes) scope'

/-- Writing is writing the count, and then what it counts. -/
theorem AmountsTo.packStep_eq {run : Schema → Value → Packing Unit} {c : Candidate} {scope scope' : Option Scope} {schema : Schema}
    {v : Value} {k : Nat} {rest : Packing Unit} (h : AmountsTo Γ run c scope schema v k rest scope') (out : Bytes) :
    packStep Γ run schema v ⟨out, scope⟩ = (Count.pack Γ (.prefixed c) k >>= fun _ => rest) ⟨out, scope'⟩ := by
  cases h with
  | array elements =>
    simp only [packStep, Elements.packArray]
    rw [elements, pure_bind]
  | string isText encoded =>
    simp only [packStep, Text.pack]
    rw [isText, pure_bind, Packing.encode_eq_pure encoded, pure_bind]
    rfl
  | @cstring v text bytes isText encoded =>
    simp only [packStep, Text.packTerminated]
    rw [isText, pure_bind, Packing.encode_eq_pure encoded, pure_bind, ← Array.size_push 0]
    rfl
  | @parse encode decode inner schema v plain bytes scope' resolved written encoded =>
    have hcollect : Packing.collect (Packing.candidate Γ run inner v) ⟨out, scope⟩ = .ok (plain, ⟨out, scope'⟩) := by
      rw [Packing.candidate_eq resolved]
      exact Packing.collect_eq_ok.mpr ⟨_, written, rfl⟩
    simp only [packStep, Transform.pack]
    rw [Walk.bind_apply, hcollect]
    dsimp only
    rw [encoded, Walk.ofExcept, pure_bind]
    rfl

/-- Reading starts with the count. -/
theorem unpackStep_countInFront (run : Schema → Unpacking Value) {schema : Schema} {c : Candidate}
    (front : schema.countInFront? = some c) : ∃ next, unpackStep Γ run schema = Count.prefixed? Γ c >>= next := by
  have hregion : ∀ rest : Bytes → Unpacking Value, ∃ next, Region.unpack Γ (.prefixed c) >>= rest = Count.prefixed? Γ c >>= next := by
    intro rest
    rw [Region.unpack_prefixed, bind_assoc]
    exact ⟨_, rfl⟩
  cases schema with
  | array item count =>
    cases count with
    | prefixed c' =>
      cases front
      exact ⟨_, Elements.unpackArray_prefixed c⟩
    | _ => cases front
  | string size =>
    cases size with
    | prefixed c' =>
      cases front
      exact hregion _
    | _ => cases front
  | cstring size =>
    cases size with
    | prefixed c' =>
      cases front
      have hsized : Count.prefixed c ≠ .auto := nofun
      simp only [unpackStep, Text.unpackTerminated_region hsized]
      exact hregion _
    | _ => cases front
  | parse encode decode inner size =>
    cases size with
    | prefixed c' =>
      cases front
      exact hregion _
    | _ => cases front
  | _ => cases front

/-- A count in front is exact or refused, whatever it counts. It is written before anything that it counts: one that its kind of integer
admits as a number of that kind, from which the same count is read; a larger one fails there, with the fault that names it, its kind and the
largest count. A number below zero is not read as a count. -/
theorem pack_countInFront {c : Candidate} {kind : Number} (resolved : Γ.registry.resolve c = .ok (.number kind))
    (integral : kind.isFloat = false) (depth : Nat) {schema : Schema} (front : schema.countInFront? = some c) :
    (∀ scope v k rest scope', AmountsTo Γ (pack Γ depth) c scope schema v k rest scope' →
      (∀ out, pack Γ (depth + 1) schema v ⟨out, scope⟩ = (Count.pack Γ (.prefixed c) k >>= fun _ => rest) ⟨out, scope'⟩) ∧
        (k ≤ kind.maxCount → ∃ count : Bytes, count.size = kind.size ∧
          (∀ out, pack Γ (depth + 1) schema v ⟨out, scope⟩ = rest ⟨out ++ count, scope'⟩) ∧
          ∀ data p u, count.LiesAt data p →
            Count.unpack Γ (.prefixed c) ⟨⟨data, p⟩, u⟩ = .ok (some k, ⟨⟨data, p + kind.size⟩, u⟩)) ∧
        (kind.maxCount < k → ∀ out,
          Count.pack Γ (.prefixed c) k ⟨out, scope'⟩ = .error (.fault (.countOverflow k kind.name kind.maxCount)) ∧
            pack Γ (depth + 1) schema v ⟨out, scope⟩ = .error (.fault (.countOverflow k kind.name kind.maxCount)))) ∧
      ∀ data p u n, kind.size ≤ data.size - p →
        kind.decode Γ.options.byteOrder (data.extract p (p + kind.size)).toList = .int n → n.toInt < 0 →
          Count.unpack Γ (.prefixed c) ⟨⟨data, p⟩, u⟩ = .error (.fault (.typeMismatch "count" "integer")) ∧
            unpack Γ (depth + 1) schema ⟨⟨data, p⟩, u⟩ = .error (.fault (.typeMismatch "count" "integer")) := by
  refine ⟨?_, ?_⟩
  · intro scope v k rest scope' amounts
    have hpack : ∀ out, pack Γ (depth + 1) schema v ⟨out, scope⟩ = (Count.pack Γ (.prefixed c) k >>= fun _ => rest) ⟨out, scope'⟩ :=
      amounts.packStep_eq
    refine ⟨hpack, ?_, ?_⟩
    · intro hk
      obtain ⟨count, hsize, htrip⟩ := Count.exists_front resolved integral hk
      refine ⟨count, hsize, ?_, ?_⟩
      · intro out
        have hwrites := htrip.writes out scope' (.none scope')
        unfold Appends at hwrites
        rw [hpack, Walk.bind_apply, hwrites, leaves_false]
      · intro data p u hlies
        have hreads := htrip.reads data p u (.none u) hlies
        rw [Count.unpack_prefixed, Walk.bind_apply, hreads, hsize, leaves_false]
        rfl
    · intro hk out
      have hcount := Count.pack_overflow resolved hk ⟨out, scope'⟩
      refine ⟨hcount, ?_⟩
      rw [hpack, Walk.bind_apply, hcount]
  · intro data p u n hle hn hneg
    have hcount := Count.prefixed?_negative resolved hle hn hneg u
    obtain ⟨next, hunpack⟩ := unpackStep_countInFront (unpack Γ depth) front
    refine ⟨?_, ?_⟩
    · rw [Count.unpack_prefixed, Walk.bind_apply, hcount]
    · show unpackStep Γ (unpack Γ depth) schema _ = _
      rw [hunpack, Walk.bind_apply, hcount]

/-- Up to 127 elements behind a signed byte; 128 are refused, and 255 is no count. -/
theorem pack_countInFront_signed :
    (∀ items : List Value, items.length ≤ 127 → ∃ count : Bytes, count.size = 1 ∧
      ∀ out, pack Message.context 1 (.array (.number .uint8) (.prefixed (.number .int8))) (.list items) ⟨out, none⟩ =
        Elements.pack Message.context (pack Message.context 0) (.number .uint8) items items.length ⟨out ++ count, none⟩) ∧
      pack Message.context 1 (.array (.number .uint8) (.prefixed (.number .int8))) (.list (.replicate 128 .null)) ⟨#[], none⟩ =
        .error (.fault (.countOverflow 128 "int8" 127)) ∧
      unpack Message.context 1 (.array (.number .uint8) (.prefixed (.number .int8))) ⟨⟨#[255], 0⟩, none⟩ =
        .error (.fault (.typeMismatch "count" "integer")) := by
  obtain ⟨hwrites, hreads⟩ := @pack_countInFront Message.context (.number .int8) .int8 rfl rfl 0
    (.array (.number .uint8) (.prefixed (.number .int8))) rfl
  refine ⟨?_, ?_, ?_⟩
  · intro items hlength
    obtain ⟨count, hsize, hpack, -⟩ := (hwrites none (.list items) _ _ none (.array rfl)).2.1 hlength
    exact ⟨count, hsize, hpack⟩
  · have hrefused := (hwrites none (.list (.replicate 128 .null)) _ _ none (.array rfl)).2.2
    rw [List.length_replicate] at hrefused
    exact (hrefused (by decide) #[]).2
  · have hdecode : Number.int8.decode .little [255] = .int (-1) :=
      (Number.decode_int rfl .little [255]).trans (congrArg Value.int (by decide))
    exact (hreads #[255] 0 none (-1) (by decide) hdecode (by decide)).2

end Codec

end WireLayout
