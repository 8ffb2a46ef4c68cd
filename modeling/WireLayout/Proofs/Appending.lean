import WireLayout.Proofs.Blocks
import WireLayout.Proofs.Contents
import WireLayout.Proofs.Integers

/-!
# Steps that append

Where nothing is patched, writing appends bytes to the output and does no more to the body around than to leave it. `Appends` says
this of one run, and runs are put together by `Appends.seq`. What a body does with one field is an equation in either direction
(`packFields_cons`, `unpackFields_cons_eq_ok`); behind an exit it does nothing (`packFields_exited`, `unpackFields_exited`).
-/

namespace WireLayout

/-- The body, left or not. -/
def Scope.leave (fires : Bool) (s : Scope) : Scope := { s with isExited := s.isExited || fires }

@[simp]
theorem Scope.leave_false (s : Scope) : s.leave false = s := by
  rw [leave, Bool.or_false]

theorem Scope.leave_true (s : Scope) : s.leave true = s.exit := by
  rw [leave, Bool.or_true, exit]

/-- The body around, left or not. -/
def leaves (fires : Bool) (scope : Option Scope) : Option Scope := scope.map (Scope.leave fires)

@[simp]
theorem leaves_false (scope : Option Scope) : leaves false scope = scope := by
  cases scope with
  | none => rfl
  | some s => exact congrArg some s.leave_false

theorem leaves_leaves (fires fires' : Bool) (scope : Option Scope) :
    leaves fires' (leaves fires scope) = leaves (fires || fires') scope := by
  cases scope with
  | none => rfl
  | some s =>
    simp only [leaves, Option.map_some, Scope.leave, Bool.or_assoc]

/-- A count in front that its kind admits is written as a number. -/
theorem Count.pack_prefixed {Γ : Context} {c : Candidate} {kind : Number} (hc : Γ.registry.resolve c = .ok (.number kind))
    {n : Nat} (hn : n ≤ kind.maxCount) : Count.pack Γ (.prefixed c) n = Packing.number Γ kind (.ofCount n) := by
  have hcount : (fun out => kind.packCount Γ.options.byteOrder n out) = kind.pack Γ.options.byteOrder (.ofCount n) :=
    funext (Number.packCount_eq hn Γ.options.byteOrder)
  rw [Count.pack, Walk.resolveNumber_eq_pure hc, pure_bind, hcount]
  rfl

namespace Packing

/-- The step succeeds, appends these bytes, and leaves the body around or not. -/
def Appends (step : Packing Unit) (out : Bytes) (scope : Option Scope) (bytes : Bytes) (fires : Bool) : Prop :=
  step ⟨out, scope⟩ = .ok ((), ⟨out ++ bytes, leaves fires scope⟩)

namespace Appends

variable {out bytes bytes' : Bytes} {scope : Option Scope} {fires fires' : Bool}

/-- One step after another appends the bytes of both. -/
theorem seq {step : Packing Unit} {next : Unit → Packing Unit} (h : Appends step out scope bytes fires)
    (hnext : Appends (next ()) (out ++ bytes) (leaves fires scope) bytes' fires') :
    Appends (step >>= next) out scope (bytes ++ bytes') (fires || fires') := by
  unfold Appends at *
  rw [Walk.bind_apply, h]
  dsimp only
  rw [hnext, leaves_leaves, Array.append_assoc]

theorem nothing (out : Bytes) (scope : Option Scope) : Appends (pure ()) out scope #[] false := by
  unfold Appends
  rw [Array.append_empty, leaves_false]
  rfl

theorem emit (bytes out : Bytes) (scope : Option Scope) : Appends (emit bytes) out scope bytes false := by
  unfold Appends
  rw [leaves_false]
  rfl

theorem exitScope (kind : String) (out : Bytes) (s : Scope) : Appends (Walk.exitScope kind) out (some s) #[] true := by
  unfold Appends
  rw [Array.append_empty, leaves, Option.map_some, Scope.leave_true]
  rfl

/-- A number appends its bytes. -/
theorem number {Γ : Context} {kind : Number} {v : Value} {run : List UInt8}
    (h : kind.encode Γ.options.byteOrder v = .ok run) (out : Bytes) (scope : Option Scope) :
    Appends (number Γ kind v) out scope run.toArray false := by
  unfold Appends Packing.number Packing.onOutput
  simp only [Number.pack_eq, h, Except.map, leaves_false]

/-- A count in front appends the bytes of the number that it is. -/
theorem count {Γ : Context} {c : Candidate} {kind : Number} (hc : Γ.registry.resolve c = .ok (.number kind)) {n : Nat}
    (hn : n ≤ kind.maxCount) {run : List UInt8} (h : kind.encode Γ.options.byteOrder (.ofCount n) = .ok run) (out : Bytes)
    (scope : Option Scope) : Appends (Count.pack Γ (.prefixed c) n) out scope run.toArray false := by
  rw [Count.pack_prefixed hc hn]
  exact number h out scope

end Appends

end Packing

theorem Packing.encode_eq_pure {Γ : Context} {text : String} {bytes : Bytes} (h : Γ.options.encoding.encode? text = some bytes) :
    Packing.encode Γ text = pure bytes := by
  rw [Packing.encode, Encoding.encode, h]
  rfl

namespace Text

/-- A text that can be encoded is written as the region of its bytes. -/
theorem pack_eq {Γ : Context} {text : String} {bytes : Bytes} (h : Γ.options.encoding.encode? text = some bytes) (size : Count) :
    pack Γ size (.text text) = Region.pack Γ size bytes := by
  rw [pack, ofValue, pure_bind, Packing.encode_eq_pure h, pure_bind]

theorem packTerminated_eq {Γ : Context} {text : String} {bytes : Bytes} (h : Γ.options.encoding.encode? text = some bytes)
    (size : Count) : packTerminated Γ size (.text text) = Region.pack Γ size (bytes.push 0) := by
  rw [packTerminated, ofValue, pure_bind, Packing.encode_eq_pure h, pure_bind]

end Text

/-- What stands for a number is written as that number. -/
theorem Enumeration.pack_eq {Γ : Context} {names : List (String × Int64)} {base : Candidate} {kind : Number} {v n : Value}
    (hc : Γ.registry.resolve base = .ok (.number kind)) (hn : numberOf names v = .ok n) :
    pack Γ names base v = Packing.number Γ kind n := by
  rw [pack, Walk.resolveNumber_eq_pure hc, pure_bind, hn]
  exact pure_bind _ _

/-- A dependent field is written by the schema that its sibling selects. -/
theorem Sibling.packDepend_apply {Γ : Context} {run : Schema → Value → Packing Unit} {field : String} {selector : Selector}
    {scope : Scope} {dependent : Value} {c : Candidate} {schema : Schema} (hfield : scope.field? field = some dependent)
    (hc : selector.select dependent = .ok c) (hschema : Γ.registry.resolve c = .ok schema) (v : Value) (out : Bytes) :
    packDepend Γ run field selector v ⟨out, some scope⟩ = run schema v ⟨out, some scope⟩ := by
  have hsibling : (Walk.sibling "depend" field : Packing Value) ⟨out, some scope⟩ = .ok (dependent, ⟨out, some scope⟩) :=
    Walk.sibling_eq_ok.mpr ⟨scope, rfl, hfield, rfl⟩
  rw [packDepend, Walk.bind_apply, hsibling, ← Packing.candidate_eq hschema run v]
  dsimp only
  rw [hc]
  rfl

/-- A linked array writes its count over the field that stores it, and then its elements. -/
theorem Sibling.packLink_apply {Γ : Context} {run : Schema → Value → Packing Unit} {field : String} {item c : Candidate}
    {scope : Scope} {offset : Nat} {kind : Number} {items : List Value} {bytes : List UInt8}
    (hschema : scope.fieldSchema? field = some c) (hoffset : scope.offset? field = some offset)
    (hc : Γ.registry.resolve c = .ok (.number kind)) (hle : items.length ≤ kind.maxCount)
    (hbytes : kind.encode Γ.options.byteOrder (.ofCount items.length) = .ok bytes) (out : Bytes) :
    packLink Γ run field item (.list items) ⟨out, some scope⟩ =
      Elements.pack Γ run item items items.length ⟨out.patch offset bytes.toArray, some scope⟩ := by
  have hcount : countBytes Γ run c items.length ⟨out, some scope⟩ = .ok (bytes.toArray, ⟨out, some scope⟩) := by
    have hcollect : ∀ step : Packing Unit, step ⟨#[], some scope⟩ = .ok ((), ⟨bytes.toArray, some scope⟩) →
        Packing.collect step ⟨out, some scope⟩ = .ok (bytes.toArray, ⟨out, some scope⟩) := by
      intro step hstep
      simp only [Packing.collect, Walk.bind_apply, Walk.aside, hstep, Walk.pure_apply]
    rw [countBytes, Walk.resolve_bind_ok hc]
    apply hcollect
    simp only [Packing.onOutput, Number.packCount_eq hle, Number.pack_eq, hbytes, Except.map, Array.empty_append]
  rw [packLink, Walk.bind_apply, Elements.ofValue, Walk.pure_apply]
  dsimp only
  rw [Walk.bind_apply]
  simp only [Walk.requireScope, hschema, hoffset]
  rw [Walk.bind_apply, hcount]
  rfl

namespace Body

/-! ## Fields of bodies -/

open Packing

/-- The value of a body has the shape that its layout asks for. -/
theorem packObject_valueOf (run : Candidate → Value → Packing Unit) (layout : Layout) (contents : List Value) :
    packObject run layout (layout.valueOf contents) =
      packFields run (layout.valueOf contents) layout.entries (.writing layout (layout.valueOf contents)) := by
  have hshape : checkShape layout (layout.valueOf contents) = .ok () := by
    cases layout <;> rfl
  rw [packObject, hshape]
  exact pure_bind _ _

/-- A field is written in the body, where its start is noted; the next ones are written behind it. -/
theorem packFields_cons {run : Candidate → Value → Packing Unit} {v : Value} {key : String} {c : Candidate} {rest : Keyed Candidate}
    {scope : Scope} {out bytes : Bytes} {fires : Bool} (hexit : scope.isExited = false)
    (h : Appends (run c ((v.get? key).getD .null)) out (some (scope.mark key out.size)) bytes fires) (around : Option Scope) :
    packFields run v ((key, c) :: rest) scope ⟨out, around⟩ =
      packFields run v rest ((scope.mark key out.size).leave fires) ⟨out ++ bytes, around⟩ := by
  have hwithin : Walk.within (scope.mark key out.size) (run c ((v.get? key).getD .null)) ⟨out, around⟩ =
      .ok (((), (scope.mark key out.size).leave fires), ⟨out ++ bytes, around⟩) := by
    unfold Appends at h
    simp only [Walk.within, h]
    rfl
  rw [packFields, hexit, if_neg Bool.false_ne_true]
  rw [Walk.bind_apply]
  simp only [Packing.position]
  rw [Walk.bind_apply, hwithin]

/-- Behind an exit nothing is written. -/
theorem packFields_exited {run : Candidate → Value → Packing Unit} {v : Value} {entries : Keyed Candidate} {scope : Scope}
    (hexit : scope.isExited = true) (s : WalkState Bytes) : packFields run v entries scope s = .ok ((), s) := by
  cases entries with
  | nil => rfl
  | cons entry rest => rw [packFields, if_pos hexit, Walk.pure_apply]

/-- A field is read in the body, and what it contains is added before the next ones are read. -/
theorem unpackFields_cons_eq_ok {run : Candidate → Unpacking Value} {key : String} {c : Candidate} {rest : Keyed Candidate}
    {scope : Scope} {s : WalkState Cursor} {r : Scope × WalkState Cursor} (hexit : scope.isExited = false) :
    unpackFields run ((key, c) :: rest) scope s = .ok r ↔
      ∃ v s₁, run c ⟨s.medium, some scope⟩ = .ok (v, s₁) ∧
        unpackFields run rest ((s₁.scope.getD scope).push key v) ⟨s₁.medium, s.scope⟩ = .ok r := by
  rw [unpackFields, hexit, if_neg Bool.false_ne_true, Walk.bind_eq_ok]
  constructor
  · rintro ⟨_, _, hfield, hrest⟩
    obtain ⟨v, s₁, hrun, ⟨⟩⟩ := Walk.within_eq_ok.mp hfield
    exact ⟨v, s₁, hrun, hrest⟩
  · rintro ⟨v, s₁, hrun, hrest⟩
    exact ⟨_, _, Walk.within_eq_ok.mpr ⟨v, s₁, hrun, rfl⟩, hrest⟩

/-- Behind an exit nothing is read, and every field is null. -/
theorem unpackFields_exited {run : Candidate → Unpacking Value} {layout : Layout} (hwf : layout.WellFormed)
    {before entries : Keyed Candidate} (split : layout.entries = before ++ entries) {contents : List Value}
    (hlength : contents.length = before.length) {scope : Scope} (hvalue : scope.value = layout.valueOf contents)
    (hexit : scope.isExited = true) (s : WalkState Cursor) :
    ∃ scope', unpackFields run entries scope s = .ok (scope', s) ∧
      scope'.value = layout.valueOf (contents ++ entries.map fun _ => .null) := by
  induction entries generalizing before contents scope with
  | nil => exact ⟨scope, rfl, by rw [List.map_nil, List.append_nil, hvalue]⟩
  | cons entry rest ih =>
    obtain ⟨key, c⟩ := entry
    have hlength' := Keyed.length_next hlength Value.null (key, c)
    have hpush := Layout.push_value hwf split hlength hvalue .null
    obtain ⟨scope', hread, hvalue'⟩ := ih (Keyed.split_next split) hlength' hpush (by rw [Scope.isExited_push, hexit])
    refine ⟨scope', ?_, ?_⟩
    · rw [unpackFields, if_pos hexit]
      exact hread
    · rw [hvalue', List.append_assoc]
      rfl

end Body

end WireLayout
