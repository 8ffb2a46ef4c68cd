import WireLayout.Proofs.Lengths

/-!
# The byte order is one of numbers

The byte order of a run changes the bytes inside the numbers that it writes, and nothing else: whether the run succeeds, why it fails
and how long the output is are the same in either order, and where every number that is written is a single byte the outputs are equal
(`packWith_ordered`). Which numbers a run writes is told by running it: `packAdmitting` gives up where it would write a number of a
kind that is not admitted, so a run that it follows to the end writes numbers of admitted kinds only (`PacksOnly`).
-/

namespace WireLayout

/-! ## Numbers of one byte -/

namespace Number

/-- Whether a number is a single byte, which has no order. -/
def isByte (kind : Number) : Bool := kind.size == 1

variable {kind : Number} (order order' : ByteOrder)

/-- A single byte is the same in either order. -/
theorem encode_of_isByte (h : kind.isByte = true) (v : Value) : kind.encode order v = kind.encode order' v := by
  have hsize : kind.size = 1 := eq_of_beq h
  have arranged : ∀ (order : ByteOrder) (byte : UInt8), order.arrange [byte] = [byte] := by
    intro order byte
    cases order <;> rfl
  simp only [encode, hsize, Bytes.ofWord, arranged]

theorem pack_of_isByte (h : kind.isByte = true) (v : Value) (out : Bytes) : kind.pack order v out = kind.pack order' v out := by
  rw [pack_eq, pack_eq, encode_of_isByte order order' h]

theorem packCount_of_isByte (h : kind.isByte = true) (n : Nat) (out : Bytes) :
    kind.packCount order n out = kind.packCount order' n out := by
  rw [packCount, packCount, pack_of_isByte order order' h]

end Number

/-! ## The numbers that a run writes -/

/-- Whether a candidate stands for a number of an admitted kind, or for no number. -/
def Candidate.admitted (r : Registry) (admits : Number → Bool) (c : Candidate) : Bool :=
  match r.resolve c with
  | .ok (.number kind) => admits kind
  | _ => true

namespace Count

/-- Whether the number in front, if there is one, is of an admitted kind. -/
def admitted (r : Registry) (admits : Number → Bool) : Count → Bool
  | prefixed number => number.admitted r admits
  | _ => true

end Count

/-- Whether the numbers that a schema itself writes for a value, in the body around, are of admitted kinds: the elements of an array, a
count in front, the base of an enumeration, a count that is written back. Schemas that run inside are not looked into, and what a
user-defined kind writes is not known. -/
def Schema.writesOnly (r : Registry) (admits : Number → Bool) (schema : Schema) (v : Value) (scope : Option Scope) : Bool :=
  match schema with
  | number kind => admits kind
  | array item count => count.admitted r admits && (count.lengthFor v == 0 || item.admitted r admits)
  | string size | cstring size | parse _ _ _ size => size.admitted r admits
  | enums _ base => base.admitted r admits
  | link field item =>
    (scope.bind (·.fieldSchema? field)).all (·.admitted r admits) && (Count.auto.lengthFor v == 0 || item.admitted r admits)
  | object _ | union _ _ | depend _ _ | computed _ _ | exit => true
  | custom _ => false

namespace Codec

/-- Writes like `pack`, but gives up where it would write a number of a kind that is not admitted. -/
def packAdmitting (Γ : Context) (admits : Number → Bool) : (depth : Nat) → Schema → Value → Packing Unit
  | 0, _, _ => Walk.giveUp
  | depth + 1, schema, v => fun s =>
    if schema.writesOnly Γ.registry admits v s.scope then packStep Γ (packAdmitting Γ admits depth) schema v s
    else .error .exhausted

/-- Writing that gives up at certain numbers does else what writing does. -/
theorem packAdmitting_approximates {Γ : Context} (admits : Number → Bool) (depth : Nat) (schema : Schema) (v : Value) :
    Walk.Approximates (packAdmitting Γ admits depth schema v) (pack Γ depth schema v) := by
  induction depth generalizing schema v with
  | zero => exact Walk.Approximates.giveUp _
  | succ depth ih =>
    intro s
    simp only [packAdmitting]
    split
    · exact packStep_approximates (fun schema w => ih schema w) schema v s
    · exact Or.inl rfl

/-- Every number that a run writes is of an admitted kind: writing that gives up at all others is not given up. -/
def PacksOnly (Γ : Context) (admits : Number → Bool) (depth : Nat) (schema : Schema) (v : Value) (s : WalkState Bytes) : Prop :=
  packAdmitting Γ admits depth schema v s = pack Γ depth schema v s

end Codec

/-! ## Runs that write single bytes only -/

section

variable {Γ : Context} (order : ByteOrder)

theorem Packing.number_ordered {kind : Number} (h : kind.isByte = true) :
    Packing.number (Γ.ordered order) kind = Packing.number Γ kind := by
  funext v
  exact congrArg Packing.onOutput (funext fun out => Number.pack_of_isByte _ _ h v out)

/-- A count that is a single byte is the same in either order. -/
theorem Packing.packCount_ordered {kind : Number} (h : kind.isByte = true) (n : Nat) :
    Packing.onOutput (fun out => kind.packCount (Γ.ordered order).options.byteOrder n out) =
      Packing.onOutput fun out => kind.packCount Γ.options.byteOrder n out :=
  congrArg Packing.onOutput (funext fun out => Number.packCount_of_isByte _ _ h n out)

theorem Candidate.isByte_of_admitted {c : Candidate} (h : c.admitted Γ.registry Number.isByte = true) {kind : Number}
    (hc : Γ.registry.resolve c = .ok (.number kind)) : kind.isByte = true := by
  rw [Candidate.admitted, hc] at h
  exact h

/-- What comes behind a resolution may differ where the candidate stands for something else. -/
theorem Walk.resolve_congr {α : Type} {c : Candidate} {next next' : Schema → Packing α}
    (h : ∀ schema, Γ.registry.resolve c = .ok schema → next schema = next' schema) :
    Walk.resolve (Γ.ordered order) c >>= next = Walk.resolve Γ c >>= next' := by
  have same : (Walk.resolve (Γ.ordered order) c : Packing Schema) = Walk.resolve Γ c := rfl
  rw [same]
  cases hc : Γ.registry.resolve c with
  | ok schema => rw [Walk.resolve_bind_ok hc, Walk.resolve_bind_ok hc, h schema hc]
  | error stop => rw [Walk.resolve_bind_error hc, Walk.resolve_bind_error hc]

/-- What comes behind a number that was found may differ for other numbers. -/
theorem Walk.resolveNumber_congr {α : Type} {c : Candidate} {fault : Schema → Fault} {next next' : Number → Packing α}
    (h : ∀ kind, Γ.registry.resolve c = .ok (.number kind) → next kind = next' kind) :
    Walk.resolveNumber (Γ.ordered order) c fault >>= next = Walk.resolveNumber Γ c fault >>= next' := by
  rw [Walk.resolveNumber, Walk.resolveNumber, bind_assoc, bind_assoc]
  refine resolve_congr order ?_
  intro schema hc
  cases schema with
  | number kind =>
    rw [pure_bind, pure_bind]
    exact h kind hc
  | _ => rfl

theorem Count.pack_ordered {count : Count} (h : count.admitted Γ.registry Number.isByte = true) (n : Nat) :
    count.pack (Γ.ordered order) n = count.pack Γ n := by
  cases count with
  | prefixed number =>
    refine Walk.resolveNumber_congr order ?_
    intro kind hkind
    exact Packing.packCount_ordered order (Candidate.isByte_of_admitted h hkind) n
  | fixed _ | auto => rfl

theorem Region.pack_ordered {size : Count} (h : size.admitted Γ.registry Number.isByte = true) :
    Region.pack (Γ.ordered order) size = Region.pack Γ size := by
  funext bytes
  cases size with
  | prefixed number =>
    show Count.pack (Γ.ordered order) (.prefixed number) bytes.size >>= _ = Count.pack Γ (.prefixed number) bytes.size >>= _
    rw [Count.pack_ordered order h]
  | fixed _ | auto => rfl

variable (run : Schema → Value → Packing Unit)

/-- Elements that are single bytes, or none at all, are the same in either order. -/
theorem Elements.pack_ordered {item : Candidate} {count : Nat} (h : count = 0 ∨ item.admitted Γ.registry Number.isByte = true)
    (items : List Value) : Elements.pack (Γ.ordered order) run item items count = Elements.pack Γ run item items count := by
  refine Walk.resolve_congr order ?_
  intro schema hitem
  cases schema with
  | number kind =>
    show packNumbers (Γ.ordered order) kind items count = packNumbers Γ kind items count
    rw [packNumbers_eq_packEach, packNumbers_eq_packEach]
    rcases h with rfl | h
    · rfl
    · rw [Packing.number_ordered order (Candidate.isByte_of_admitted h hitem)]
  | _ => rfl

theorem Elements.packArray_ordered {item : Candidate} {count : Count} {v : Value}
    (hcount : count.admitted Γ.registry Number.isByte = true)
    (hitem : count.lengthFor v = 0 ∨ item.admitted Γ.registry Number.isByte = true) :
    Elements.packArray (Γ.ordered order) run item count v = Elements.packArray Γ run item count v := by
  rcases Elements.ofValue_cases v with hitems | ⟨fault, hitems⟩
  · rw [packArray_eq hitems, packArray_eq hitems, Count.pack_ordered order hcount, Elements.pack_ordered order run hitem]
  · rw [packArray, packArray, hitems]
    funext s
    rw [Walk.bind_apply, Walk.bind_apply]
    rfl

theorem Sibling.countBytes_ordered {counter : Candidate} (h : counter.admitted Γ.registry Number.isByte = true) (n : Nat) :
    Sibling.countBytes (Γ.ordered order) run counter n = Sibling.countBytes Γ run counter n := by
  refine Walk.resolve_congr order ?_
  intro schema hcounter
  cases schema with
  | number kind => exact congrArg Packing.collect (Packing.packCount_ordered order (Candidate.isByte_of_admitted h hcounter) n)
  | _ => rfl

theorem Sibling.packLink_ordered {field : String} {item : Candidate} {v : Value} {s : WalkState Bytes}
    (hcount : (s.scope.bind (·.fieldSchema? field)).all (·.admitted Γ.registry Number.isByte) = true)
    (hitem : Count.auto.lengthFor v = 0 ∨ item.admitted Γ.registry Number.isByte = true) :
    packLink (Γ.ordered order) run field item v s = packLink Γ run field item v s := by
  have hlength : Count.auto.lengthFor v = (v.list?.getD []).length := rfl
  rw [hlength] at hitem
  rw [packLink, packLink]
  rcases Elements.ofValue_cases v with hitems | ⟨fault, hitems⟩
  · rw [hitems, pure_bind, pure_bind, Walk.bind_apply, Walk.bind_apply]
    obtain ⟨out, scope⟩ := s
    cases scope with
    | none => rfl
    | some scope =>
      simp only [Walk.requireScope]
      cases hcounter : scope.fieldSchema? field with
      | none => rfl
      | some counter =>
        simp only [Option.bind_some, hcounter, Option.all_some] at hcount
        cases scope.offset? field with
        | none => rfl
        | some offset =>
          dsimp only
          rw [countBytes_ordered order run hcount, Elements.pack_ordered order run hitem]
  · rw [hitems, Walk.bind_apply, Walk.bind_apply]
    rfl

/-- A schema whose own numbers are single bytes writes the same in either order, where the schemas inside it do. -/
theorem Codec.packStep_ordered {schema : Schema} {v : Value} {s : WalkState Bytes}
    (h : schema.writesOnly Γ.registry Number.isByte v s.scope = true) :
    packStep (Γ.ordered order) run schema v s = packStep Γ run schema v s := by
  cases schema with
  | number kind => exact congrFun (congrFun (Packing.number_ordered order h) v) s
  | array item count =>
    simp only [Schema.writesOnly, Bool.and_eq_true, Bool.or_eq_true, beq_iff_eq] at h
    exact congrFun (Elements.packArray_ordered order run h.1 h.2) s
  | string size =>
    show (Text.ofValue v >>= fun text => Packing.encode Γ text >>= Region.pack (Γ.ordered order) size) s = _
    rw [Region.pack_ordered order h]
    rfl
  | cstring size =>
    show (Text.ofValue v >>= fun text => Packing.encode Γ text >>= fun bytes => Region.pack (Γ.ordered order) size (bytes.push 0)) s = _
    rw [Region.pack_ordered order h]
    rfl
  | enums names base =>
    refine congrFun (Walk.resolveNumber_congr order ?_) s
    intro kind hkind
    rw [Packing.number_ordered order (Candidate.isByte_of_admitted h hkind)]
  | link field item =>
    simp only [Schema.writesOnly, Bool.and_eq_true, Bool.or_eq_true, beq_iff_eq] at h
    exact Sibling.packLink_ordered order run h.1 h.2
  | parse encode decode inner size =>
    show (Packing.collect (Packing.candidate Γ run inner v) >>= fun plain => Walk.ofExcept (encode.apply plain) >>=
      Region.pack (Γ.ordered order) size) s = _
    rw [Region.pack_ordered order h]
    rfl
  | custom extension => cases h
  | object _ | union _ _ | depend _ _ | computed _ _ | exit => rfl

end

/-- Writing that gives up at every number wider than a byte knows no order. -/
theorem Codec.packAdmitting_ordered {Γ : Context} (order : ByteOrder) (depth : Nat) :
    packAdmitting (Γ.ordered order) Number.isByte depth = packAdmitting Γ Number.isByte depth := by
  induction depth with
  | zero => rfl
  | succ depth ih =>
    funext schema v s
    have same : (Γ.ordered order).registry = Γ.registry := rfl
    simp only [packAdmitting, ih, same]
    split
    · next h => exact packStep_ordered order _ h
    · rfl

/-- In either order the same bytes are packed but for those inside numbers, which are as many. -/
theorem Codec.packed_ordered {Γ : Context} (order : ByteOrder) (depth : Nat) {schema : Schema}
    (plain : Site.Throughout Γ.registry .any (fun site => site.schema.isPlain = true) (.top schema)) (v : Value) :
    Both (fun bytes bytes' => bytes'.size = bytes.size ∧ (PacksOnly Γ Number.isByte depth schema v ⟨#[], none⟩ → bytes' = bytes))
      (packed Γ depth schema v) (packed (Γ.ordered order) depth schema v) := by
  have inStep : Both (EvenAfter none Eq) (pack Γ depth schema v ⟨#[], none⟩) (pack (Γ.ordered order) depth schema v ⟨#[], none⟩) :=
    pack_inStep order depth plain v #[] #[] none rfl rfl
  rw [packed, packed]
  cases first : pack Γ depth schema v ⟨#[], none⟩ with
  | error stop =>
    rw [first] at inStep
    generalize pack (Γ.ordered order) depth schema v ⟨#[], none⟩ = second at inStep
    cases inStep
    exact .stop stop
  | ok result =>
    rw [first] at inStep
    obtain ⟨result', second, after⟩ := inStep.exists_of_ok
    rw [second]
    refine .ok ⟨after.size, fun only => ?_⟩
    have followed : packAdmitting (Γ.ordered order) Number.isByte depth schema v ⟨#[], none⟩ = .ok result := by
      rw [packAdmitting_ordered]
      exact only.trans first
    have same := (packAdmitting_approximates Number.isByte depth schema v).eq_ok followed
    rw [second] at same
    cases same
    rfl

namespace Registry

/-- Every number that is written when a value is packed is of an admitted kind. -/
def PacksOnly (r : Registry) (admits : Number → Bool) (c : Candidate) (v : Value) (options : Options) : Prop :=
  ∀ schema, r.resolve c = .ok schema → Codec.PacksOnly ⟨r, options⟩ admits r.limits.depth schema v ⟨#[], none⟩

/-- Under options that differ in the byte order alone, a value is packed or not alike, for the same reason if not, to the same number of
bytes; and to the same bytes where every number that is written is a single byte. No transform and no user-defined kind must run inside. -/
theorem packWith_ordered (r : Registry) (c : Candidate) (v : Value) (options : Options) (order : ByteOrder)
    (plain : ∀ schema, r.resolve c = .ok schema → Site.Throughout r .any (fun site => site.schema.isPlain = true) (.top schema)) :
    Both (fun bytes bytes' => bytes'.size = bytes.size ∧ (r.PacksOnly Number.isByte c v options → bytes' = bytes))
      (r.packWith c v options) (r.packWith c v (options.setByteOrder order)) := by
  cases hc : r.resolve c with
  | error stop =>
    rw [packWith_of_resolve_error hc, packWith_of_resolve_error hc]
    exact .stop stop
  | ok schema =>
    rw [Codec.packWith_of_resolve hc, Codec.packWith_of_resolve hc]
    refine (Codec.packed_ordered order r.limits.depth (plain schema hc) v).mono ?_
    rintro bytes bytes' ⟨hsize, hsame⟩
    exact ⟨hsize, fun only => hsame (only schema hc)⟩

end Registry

namespace Packet

/-- No words, so that the numbers that are written are single bytes. -/
def wordless : Value := .record [("words", .list []), ("name", .text "a")]

theorem plain {r : Registry} : Site.Throughout r .any (fun site => site.schema.isPlain = true) (.top schema) :=
  Packet.throughout rfl (fun _ => rfl) (fun _ => rfl) rfl fun _ => rfl

/-- A packet of no words is the same in either order. -/
theorem packWith_ordered_wordless :
    Site.Throughout Registry.standard .any (fun site => site.schema.isPlain = true) (.top schema) ∧
      Registry.standard.PacksOnly Number.isByte (.schema schema) wordless .littleEndian ∧
      Registry.standard.packWith (.schema schema) wordless (Options.littleEndian.setByteOrder .big) = .ok #[0, 97, 0] := by
  have only : Registry.standard.PacksOnly Number.isByte (.schema schema) wordless .littleEndian := by
    rintro _ ⟨⟩
    rfl
  have little : Registry.standard.packWith (.schema schema) wordless .littleEndian = .ok #[0, 97, 0] := rfl
  have both := Registry.packWith_ordered Registry.standard (.schema schema) wordless .littleEndian .big (by rintro _ ⟨⟩; exact plain)
  rw [little] at both
  obtain ⟨bytes', big, -, same⟩ := both.exists_of_ok
  exact ⟨plain, only, by rw [big, same only]⟩

/-- The words of a packet are turned round, and nothing else is. -/
example : Registry.standard.packWith (.schema schema) value (Options.littleEndian.setByteOrder .big) = .ok #[2, 0, 1, 0, 2, 97, 0] := rfl

end Packet

end WireLayout
