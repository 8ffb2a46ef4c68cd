import WireLayout.Proofs.DeadFields
import WireLayout.Proofs.Merging

/-!
# Objects one behind the other

Where two objects have no field in common, the merged object is the one followed by the other (`merge_concatenates`). The fields of the
second one then run in the body of the first, further along in the output, and with its fields in sight. They do the same there as by
themselves: they ask for none of those fields, their places are counted from the same start as the output, and the body was not left.
-/

namespace WireLayout

open Codec

/-- Two objects without a field in common. In its own body the second one does not ask for a field of the first. -/
structure Concatenation (Γ : Context) where
  first : Keyed Candidate
  second : Keyed Candidate
  distinct : (Keyed.keys (first ++ second)).Nodup
  firstLooks : (Layout.named first).Looks Γ.registry fun _ => True
  secondLooks : (Layout.named second).Looks Γ.registry fun name => name ∉ Keyed.keys first
  plain : Site.Throughout Γ.registry .any (fun site => site.schema.isCustom = false ∧ site.LinksInside) (.top (.object (.named second)))

namespace Concatenation

variable {Γ : Context} (C : Concatenation Γ) {depth : Nat} {v : Value}

/-- The object of the fields of both. -/
def merged : Layout := .named (C.first ++ C.second)

theorem nodup : (Keyed.keys C.first).Nodup ∧ (Keyed.keys C.second).Nodup ∧
    ∀ name ∈ Keyed.keys C.first, ∀ name' ∈ Keyed.keys C.second, name ≠ name' := by
  have distinct := C.distinct
  rwa [Keyed.keys_append, List.nodup_append] at distinct

theorem continues : C.merged.Continues (.named C.first) C.first C.second := ⟨rfl, C.distinct, rfl⟩

/-- The fields of the first object, alone and with those of the second behind them. -/
def lead : Stretch :=
  have split : (Layout.named C.first).entries = C.first ++ [] := (List.append_nil _).symm
  C.continues.stretch C.nodup.1 split

theorem sameKind : (Layout.named C.second).isPositional = (Layout.named C.first).isPositional := rfl

theorem startsWriting (v : Value) : C.lead.Writing v v (.writing (.named C.first) v) (.writing C.merged v) :=
  C.continues.writing C.nodup.1 _ v

/-- The fields of the second object, alone and behind those of the first. -/
def tail : Stretch where
  names name := name ∉ Keyed.keys C.first
  inner := .named C.second
  outer := C.merged
  lead := C.first
  fields := C.second
  after := []
  after' := []
  inner_wellFormed := C.nodup.2.1
  outer_wellFormed := C.distinct
  inner_split := (List.append_nil _).symm
  outer_split := by rw [List.append_nil]; rfl
  named name mem mem' := C.nodup.2.2 name mem' name mem rfl
  apart _ mem := not_not_intro mem

/-! ## Writing -/

theorem pack_misshapen {layout : Layout} {fault : Fault} (shape : Body.checkShape layout v = .error fault) (s : WalkState Bytes) :
    pack Γ (depth + 1) (.object layout) v s = .error (.fault fault) := by
  show Body.packObject _ layout v s = _
  rw [Body.packObject, shape]
  rfl

/-- An object whose value has the right shape writes its fields. -/
theorem pack_shaped {layout : Layout} (shape : Body.checkShape layout v = .ok ()) (s : WalkState Bytes) :
    pack Γ (depth + 1) (.object layout) v s =
      Body.packFields (Packing.candidate Γ (pack Γ depth)) v layout.entries (.writing layout v) s := by
  show Body.packObject _ layout v s = _
  rw [Body.packObject, shape]
  rfl

/-- Behind the first object, the fields of the second one write what this one writes by itself. -/
theorem packFields_second (shape : Body.checkShape (.named C.second) v = .ok ()) {s t : Scope}
    (h : C.lead.Writing v v s t) (inside : s.isExited = false) (out : Bytes) :
    Body.packFields (Packing.candidate Γ (pack Γ depth)) v C.second t ⟨out, none⟩ =
      (packed Γ (depth + 1) (.object (.named C.second)) v).map fun bytes => ((), ⟨out ++ bytes, none⟩) := by
  have start : C.tail.Writing v v (.writing (.named C.second) v) t := by
    refine ⟨rfl, h.outer, rfl, h.value', h.exited.trans inside, fun name apart => ?_, nofun⟩
    have unplaced : s.offset? name = none := by
      cases found : s.offset? name with
      | none => rfl
      | some offset => exact absurd (h.started name offset found) apart
    exact (h.offset? name nofun).trans unplaced
  rw [← pack_behind C.plain v out, pack_shaped shape]
  exact Stretch.packFields (fun _ _ => rfl) shape C.secondLooks depth start ⟨out, none⟩

/-- Where the first object is not left, the merged one writes both, one behind the other. -/
theorem packed_merged
    (stays : ∀ scope s', Body.packFirst (Packing.candidate Γ (pack Γ depth)) v C.first (.writing (.named C.first) v) ⟨#[], none⟩ =
      .ok (scope, s') → scope.isExited = false) :
    packed Γ (depth + 1) (.object C.merged) v =
      packed Γ (depth + 1) (.object (.named C.first)) v >>= fun x =>
        packed Γ (depth + 1) (.object (.named C.second)) v >>= fun y => pure (x ++ y) := by
  have secondShape : Body.checkShape (.named C.second) v = Body.checkShape (.named C.first) v := Layout.checkShape_kind C.sameKind v
  have mergedShape : Body.checkShape C.merged v = Body.checkShape (.named C.first) v := Layout.checkShape_kind C.continues.kind v
  cases shape : Body.checkShape (.named C.first) v with
  | error fault =>
    rw [packed, packed, pack_misshapen (mergedShape.trans shape), pack_misshapen shape]
    rfl
  | ok _ =>
    have both := Stretch.packFirst (fun _ _ => rfl) shape C.firstLooks depth (C.startsWriting v) #[] none none
    change Both _ (Body.packFirst _ v C.first (.writing (.named C.first) v) _) (Body.packFirst _ v C.first (.writing C.merged v) _) at both
    have split : C.merged.entries = C.first ++ C.second := rfl
    have alone : (Layout.named C.first).entries = C.first := rfl
    rw [packed, packed, pack_shaped (mergedShape.trans shape), pack_shaped shape, split, alone, Body.packFields_append, Body.packFields_eq,
      Walk.bind_apply, Walk.bind_apply]
    cases written : Body.packFirst (Packing.candidate Γ (pack Γ depth)) v C.first (.writing (.named C.first) v) ⟨#[], none⟩ with
    | error stop =>
      rw [written] at both
      generalize Body.packFirst (Packing.candidate Γ (pack Γ depth)) v C.first (.writing C.merged v) ⟨#[], none⟩ = other at both
      cases both
      rfl
    | ok r =>
      rw [written] at both
      obtain ⟨⟨t, ⟨out, _⟩⟩, written', writing, rfl, -, rfl⟩ := both.exists_of_ok
      rw [written']
      show (Body.packFields _ v C.second t ⟨r.2.medium, none⟩).map _ = _
      rw [C.packFields_second (secondShape.trans shape) writing (stays _ _ written)]
      show _ = packed Γ (depth + 1) (.object (.named C.second)) v >>= fun y => pure (r.2.medium ++ y)
      cases packed Γ (depth + 1) (.object (.named C.second)) v <;> rfl

/-! ## Reading -/

/-- The value of the merged object is that of the first one and, behind it, that of the second one. -/
theorem valueOf_merged {contents : List Value} (length : contents.length = C.first.length) (more : List Value) :
    C.merged.valueOf (contents ++ more) = .record ((Keyed.keys C.first).zip contents ++ (Keyed.keys C.second).zip more) := by
  have keys : (Keyed.keys C.first).length = contents.length := by rw [Keyed.length_keys, length]
  show Value.record ((Keyed.keys (C.first ++ C.second)).zip (contents ++ more)) = _
  rw [Keyed.keys_append, List.zip_append keys]

/-- Behind what was read of the first object, the fields of the second one show what they do by themselves. -/
theorem shows {contents : List Value} (length : contents.length = C.first.length) : C.tail.Shows contents := by
  intro more name _ apart
  have front : ((Keyed.keys C.first).zip contents).lookup name = none := by
    refine Keyed.lookup_eq_none ?_
    rw [Keyed.keys_zip (by rw [Keyed.length_keys, length])]
    exact apart
  show (C.merged.valueOf (contents ++ more)).get? name = ((Keyed.keys C.second).zip more).lookup name
  rw [C.valueOf_merged length]
  show List.lookup name (_ ++ _) = _
  rw [List.lookup_append, front]
  rfl

/-- Where the first object is read, and is not left, the merged one goes on with the second, from where the first one stopped. -/
theorem unpack_merged {s s' : WalkState Cursor} {scope : Scope}
    (read : Body.unpackFields (Unpacking.candidate Γ (unpack Γ depth)) C.first (.reading (.named C.first)) s = .ok (scope, s'))
    (inside : scope.isExited = false) :
    ∃ xs, unpack Γ (depth + 1) (.object (.named C.first)) s = .ok (.record xs, s') ∧
      Both (fun a b => ∃ ys, a.1 = .record ys ∧ b = (.record (xs ++ ys), a.2)) (unpack Γ (depth + 1) (.object (.named C.second)) s')
        (unpack Γ (depth + 1) (.object C.merged) s) := by
  obtain ⟨cursor, around⟩ := s
  have alike := Stretch.readsAlike (C.continues.shows C.nodup.1 (List.append_nil _).symm) C.firstLooks depth
  have start : C.lead.Reading [] [] (.reading (.named C.first)) (.reading C.merged) := C.continues.reading C.nodup.1 _
  obtain ⟨t, contents, read', length, reading⟩ := Stretch.unpackFields_ok rfl alike start read
  have length' : contents.length = C.first.length := length
  have readFirst : Body.unpackFields (Unpacking.candidate Γ (unpack Γ depth)) C.first (.reading C.merged) ⟨cursor, around⟩ =
      .ok (t, s') := read'
  have value : scope.value = .record ((Keyed.keys C.first).zip contents) := reading.value
  have value' : t.value = C.merged.valueOf contents := reading.value'
  have exited : t.isExited = scope.isExited := reading.exited
  have startTail : C.tail.Reading contents [] (.reading (.named C.second)) t :=
    ⟨(Layout.named C.second).valueOf_nil.symm, value'.trans (congrArg C.merged.valueOf (List.append_nil contents).symm),
      exited.trans inside⟩
  have both := Stretch.unpackFields length' (Stretch.readsAlike (C.shows length') C.secondLooks depth) startTail s'.medium s'.scope s'.scope
  refine ⟨(Keyed.keys C.first).zip contents, ?_, ?_⟩
  · show (Body.unpackFields _ C.first (.reading (.named C.first)) >>= fun scope => pure scope.value) ⟨cursor, around⟩ = _
    rw [Walk.bind_apply, read]
    exact congrArg (fun v => Except.ok (v, s')) value
  · show Both _ ((Body.unpackFields _ C.second (.reading (.named C.second)) >>= fun scope => pure scope.value) s')
      ((Body.unpackFields _ (C.first ++ C.second) (.reading C.merged) >>= fun scope => pure scope.value) ⟨cursor, around⟩)
    rw [Body.unpackFields_append, bind_assoc, Walk.bind_apply (Body.unpackFields _ C.first _), readFirst]
    refine Walk.both_bind both ?_
    rintro ⟨inner, cursor₁, _⟩ ⟨outer, cursor₂, _⟩ - ⟨⟨more, -, reading⟩, medium, rfl, rfl⟩
    obtain rfl : cursor₂ = cursor₁ := medium
    have ownValue : inner.value = .record ((Keyed.keys C.second).zip more) := reading.value
    have wholeValue : outer.value = C.merged.valueOf (contents ++ more) := reading.value'
    refine .ok ⟨(Keyed.keys C.second).zip more, ownValue, ?_⟩
    rw [wholeValue, C.valueOf_merged length']

/-- Merging two objects without a field in common puts one behind the other. A value that does not leave the body of the first object is
packed to the bytes of the first one and, behind them, those of the second one; where either of them cannot be packed, the merged object
cannot, for the same reason. From an input that the first one reads without being left, the merged one reads its fields and then what the
second one reads from where it stopped, or fails as the second one does. -/
theorem merge_concatenates :
    (∀ a b, Γ.registry.resolve a = .ok (.object (.named C.first)) → Γ.registry.resolve b = .ok (.object (.named C.second)) →
        Γ.registry.merge [a, b] = .ok (.object C.merged)) ∧
      (∀ depth v,
        (∀ scope s', Body.packFirst (Packing.candidate Γ (pack Γ depth)) v C.first (.writing (.named C.first) v) ⟨#[], none⟩ =
          .ok (scope, s') → scope.isExited = false) →
        packed Γ (depth + 1) (.object C.merged) v =
          packed Γ (depth + 1) (.object (.named C.first)) v >>= fun x =>
            packed Γ (depth + 1) (.object (.named C.second)) v >>= fun y => pure (x ++ y)) ∧
      ∀ depth s scope s', Body.unpackFields (Unpacking.candidate Γ (unpack Γ depth)) C.first (.reading (.named C.first)) s =
          .ok (scope, s') → scope.isExited = false →
        ∃ xs, unpack Γ (depth + 1) (.object (.named C.first)) s = .ok (.record xs, s') ∧
          Both (fun a b => ∃ ys, a.1 = .record ys ∧ b = (.record (xs ++ ys), a.2)) (unpack Γ (depth + 1) (.object (.named C.second)) s')
            (unpack Γ (depth + 1) (.object C.merged) s) := by
  refine ⟨fun a b first second => ?_, fun depth v stays => C.packed_merged stays, fun depth s scope s' read inside => ?_⟩
  · have objects : Γ.registry.Objects [a, b] [.named C.first, .named C.second] := .cons first (.cons second .nil)
    have fields : [Layout.named C.first, .named C.second].flatMap Layout.entries = C.first ++ C.second := by
      rw [List.flatMap_cons, List.flatMap_singleton]
      rfl
    have distinct : (Keyed.keys ([] ++ (C.first ++ C.second))).Nodup := C.distinct
    rw [Registry.merge_objects objects, fields, Keyed.ofList, Keyed.insertAll_eq_append distinct]
    rfl
  · exact C.unpack_merged read inside

end Concatenation

namespace Parcel

/-- As many bytes as the size says. -/
def load : Keyed Candidate := [("size", .number .uint8), ("data", .link "size" (.number .uint8))]

/-- What holds of the two fields and of what runs inside them holds throughout. -/
theorem throughout {r : Registry} {sight : Sight} {φ : Site → Prop} (object : φ (.top (.object (.named load))))
    (byte : ∀ place, φ ⟨.number .uint8, some place, false⟩)
    (data : ∀ place, φ ⟨.link "size" (.number .uint8), some place, false⟩) :
    Site.Throughout r sight φ (.top (.object (.named load))) := by
  refine Site.throughout_object object ?_
  intro i key c schema hi hc
  match i with
  | 0 =>
    cases hi
    cases hc
    exact Site.throughout_number (byte _)
  | 1 =>
    cases hi
    cases hc
    refine Site.throughout_link (data _) ?_ ?_
    · rintro _ ⟨⟩
      exact Site.throughout_number (byte _)
    · rintro _ _ ⟨⟩ ⟨⟩
      exact Site.throughout_number (byte _)
  | i + 2 => cases hi

/-- A packet with a load behind it. -/
def parts : Concatenation Packet.context where
  first := Packet.layout.entries
  second := load
  distinct := by
    unfold load Packet.layout
    decide
  firstLooks := Layout.looks_of_plain (Packet.throughout rfl (fun _ => rfl) (fun _ => rfl) rfl fun _ => rfl)
  secondLooks := by
    have apart : "size" ∉ Keyed.keys Packet.layout.entries := by
      unfold Packet.layout
      decide
    exact Layout.looks_of_throughout (throughout trivial (fun _ => trivial) fun _ => apart)
  plain := throughout ⟨rfl, nofun⟩ (fun _ => ⟨rfl, nofun⟩) fun _ => ⟨rfl, nofun⟩

def head : Keyed Value := [("count", .int 2), ("words", .list [.int 1, .int 2]), ("name", .text "a")]

def back : Keyed Value := [("size", .int 1), ("data", .list [.int 9])]

def value : Value := .record (head ++ back)

/-- Each of the two counts stands where its own object has it. -/
def bytes : Bytes := Packet.bytes ++ #[1, 9]

end Parcel

/-- A packet and a load, each with a count of its own. -/
theorem Concatenation.merge_concatenates_parcel :
    Registry.standard.merge [.object Packet.layout, .object (.named Parcel.load)] = .ok (.object Parcel.parts.merged) ∧
      packed Packet.context 4 (.object Parcel.parts.merged) Parcel.value = .ok Parcel.bytes ∧
      unpack Packet.context 4 (.object Parcel.parts.merged) ⟨⟨Parcel.bytes, 0⟩, none⟩ =
        .ok (Parcel.value, ⟨⟨Parcel.bytes, 9⟩, none⟩) := by
  obtain ⟨merges, packs, unpacks⟩ := merge_concatenates Parcel.parts
  refine ⟨merges _ _ rfl rfl, ?_, ?_⟩
  · refine (packs 3 Parcel.value ?_).trans rfl
    intro scope s' written
    have inside : (Body.packFirst (Packing.candidate Packet.context (pack Packet.context 3)) Parcel.value Packet.layout.entries
        (.writing Packet.layout Parcel.value) ⟨#[], none⟩).map (fun r => r.1.isExited) = .ok false := rfl
    change Body.packFirst _ Parcel.value Packet.layout.entries (.writing Packet.layout Parcel.value) ⟨#[], none⟩ = _ at written
    rw [written] at inside
    exact Except.ok.inj inside
  · obtain ⟨xs, alone, both⟩ := unpacks 3 ⟨⟨Parcel.bytes, 0⟩, none⟩ _ ⟨⟨Parcel.bytes, 7⟩, none⟩ rfl rfl
    have first : unpack Packet.context 4 (.object (.named Packet.layout.entries)) ⟨⟨Parcel.bytes, 0⟩, none⟩ =
        .ok (.record Parcel.head, ⟨⟨Parcel.bytes, 7⟩, none⟩) := rfl
    have second : unpack Packet.context 4 (.object (.named Parcel.load)) ⟨⟨Parcel.bytes, 7⟩, none⟩ =
        .ok (.record Parcel.back, ⟨⟨Parcel.bytes, 9⟩, none⟩) := rfl
    obtain ⟨⟩ := first.symm.trans alone
    change Both _ (unpack Packet.context 4 (.object (.named Parcel.load)) _) _ at both
    rw [second] at both
    obtain ⟨r, whole, ys, ⟨⟩, rfl⟩ := both.exists_of_ok
    exact whole

end WireLayout
