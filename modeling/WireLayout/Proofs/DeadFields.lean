import WireLayout.Proofs.ForwardDepend
import WireLayout.Proofs.Refusals
import WireLayout.Proofs.Stretch

/-!
# Fields behind an exit

Once a body was left, none of its further fields is run. What stands in front of them cannot see them either: their schemas are known to the
body, but a linked array only reaches fields that were started. So fields behind an exit are dead, and any others may take their place
(`exit_ends_body`), in every body whose own fields are not of a user-defined kind.
-/

namespace WireLayout

open Codec

/-- A layout of the same kind as another one, which has these fields behind the same front. -/
structure Layout.Continues (layout' layout : Layout) (front after' : Keyed Candidate) : Prop where
  kind : layout'.isPositional = layout.isPositional
  wellFormed : layout'.WellFormed
  split : layout'.entries = front ++ after'

namespace Layout.Continues

variable {layout layout' : Layout} {front after after' : Keyed Candidate}

theorem zip_front {names more : List String} {contents : List Value} (h : contents.length ≤ names.length) :
    (names ++ more).zip contents = names.zip contents := by
  induction names generalizing contents with
  | nil =>
    obtain rfl : contents = [] := List.length_eq_zero_iff.mp (Nat.le_zero.mp h)
    exact List.zip_nil_right
  | cons name names ih =>
    cases contents with
    | nil => rfl
    | cons v contents => exact congrArg ((name, v) :: ·) (ih (Nat.le_of_succ_le_succ h))

/-- As long as no more than the front is read, the value is the same. -/
theorem valueOf (h : layout'.Continues layout front after') (split : layout.entries = front ++ after) {contents : List Value}
    (few : contents.length ≤ front.length) : layout'.valueOf contents = layout.valueOf contents := by
  have kind := h.kind
  cases layout with
  | named fields =>
    cases layout' with
    | named fields' =>
      obtain rfl : fields' = front ++ after' := h.split
      obtain rfl : fields = front ++ after := split
      have few' : contents.length ≤ (Keyed.keys front).length := by rwa [Keyed.length_keys]
      rw [Layout.valueOf, Layout.valueOf, Keyed.keys_append, Keyed.keys_append, zip_front few', zip_front few']
    | positional items' => cases kind
  | positional items =>
    cases layout' with
    | named fields' => cases kind
    | positional items' => rfl

/-- The front is what both layouts have in common. -/
def stretch (h : layout'.Continues layout front after') (wellFormed : layout.WellFormed) (split : layout.entries = front ++ after) :
    Stretch where
  names _ := True
  inner := layout
  outer := layout'
  lead := []
  fields := front
  inner_wellFormed := wellFormed
  outer_wellFormed := h.wellFormed
  inner_split := split
  outer_split := h.split
  named _ _ := trivial
  apart _ hmem := nomatch hmem

section

variable (h : layout'.Continues layout front after') (wellFormed : layout.WellFormed) (split : layout.entries = front ++ after)

/-- Both bodies begin to write the front alike. -/
theorem writing (v : Value) : (h.stretch wellFormed split).Writing v v (.writing layout v) (.writing layout' v) :=
  ⟨rfl, rfl, rfl, rfl, rfl, fun _ _ => rfl, nofun⟩

/-- Both bodies begin to read the front alike. -/
theorem reading : (h.stretch wellFormed split).Reading [] [] (.reading layout) (.reading layout') :=
  ⟨layout.valueOf_nil.symm, layout'.valueOf_nil.symm, rfl⟩

theorem shows : (h.stretch wellFormed split).Shows [] := fun _ name few _ => congrArg (·.get? name) (h.valueOf split few)

end

end Layout.Continues

namespace Codec

variable {Γ : Context} {layout layout' : Layout} {front after after' : Keyed Candidate} {depth : Nat}

/-- Where the front leaves the body whenever it is written, an object is its front. -/
theorem pack_front (wellFormed : layout.WellFormed) (split : layout.entries = front ++ after)
    (looks : layout.Looks Γ.registry fun _ => True) {v : Value} {s : WalkState Bytes}
    (leaves : ∀ scope s', Body.packFirst (Packing.candidate Γ (pack Γ depth)) v front (.writing layout v) s = .ok (scope, s') →
      scope.isExited = true) (h : layout'.Continues layout front after') :
    pack Γ (depth + 1) (.object layout') v s =
      (Walk.ofExcept (Body.checkShape layout v) >>= fun _ =>
        Body.packFirst (Packing.candidate Γ (pack Γ depth)) v front (.writing layout v) >>= fun _ => pure ()) s := by
  show Body.packObject (Packing.candidate Γ (pack Γ depth)) layout' v s = _
  rw [Body.packObject, Layout.checkShape_kind h.kind]
  cases shape : Body.checkShape layout v with
  | error fault => rfl
  | ok shaped =>
    obtain ⟨out, around⟩ := s
    have passed : (Walk.ofExcept (.ok shaped) : Packing Unit) = pure shaped := rfl
    have both := Stretch.packFirst (fun _ _ => rfl) shape looks depth (h.writing wellFormed split v) out around around
    rw [passed, pure_bind, pure_bind, h.split, Body.packFields_append]
    refine (Walk.both_bind both ?_).eq.symm
    rintro ⟨scope, ⟨out, _⟩⟩ ⟨scope', ⟨out', _⟩⟩ first ⟨writing, rfl, rfl, rfl⟩
    have exited : scope'.isExited = true := writing.exited.trans (leaves _ _ first)
    exact Both.of_eq (Body.packFields_exited exited _).symm

/-- Behind a front that leaves the body all fields are read as null, from no bytes. -/
theorem unpack_front (wellFormed : layout.WellFormed) (split : layout.entries = front ++ after)
    (looks : layout.Looks Γ.registry fun _ => True) {s : WalkState Cursor} {r : Scope × WalkState Cursor} {contents : List Value}
    (read : Body.unpackFields (Unpacking.candidate Γ (unpack Γ depth)) front (.reading layout) s = .ok r) (left : r.1.isExited = true)
    (length : contents.length = front.length) (value : r.1.value = layout.valueOf contents) (h : layout'.Continues layout front after') :
    unpack Γ (depth + 1) (.object layout') s = .ok (layout'.valueOf (contents ++ List.replicate after'.length .null), r.2) := by
  obtain ⟨cursor, around⟩ := s
  have alike := Stretch.readsAlike (h.shows wellFormed split) looks depth
  obtain ⟨scope, more, read', length', reading⟩ := Stretch.unpackFields_ok rfl alike (h.reading wellFormed split) read
  have value' : scope.value = layout'.valueOf contents := calc
    scope.value = layout'.valueOf more := reading.value'
    _ = layout.valueOf more := h.valueOf split (Nat.le_of_eq length')
    _ = r.1.value := reading.value.symm
    _ = layout.valueOf contents := value
    _ = layout'.valueOf contents := (h.valueOf split (Nat.le_of_eq length)).symm
  obtain ⟨behind, nulls, filled⟩ :=
    Body.unpackFields_exited h.wellFormed h.split length value' (reading.exited.trans left) r.2
  have fields : Body.unpackFields (Unpacking.candidate Γ (unpack Γ depth)) layout'.entries (.reading layout') ⟨cursor, around⟩ =
      .ok (behind, r.2) := by
    have front' : Body.unpackFields (Unpacking.candidate Γ (unpack Γ depth)) front (.reading layout') ⟨cursor, around⟩ =
        .ok (scope, r.2) := read'
    rw [h.split, Body.unpackFields_append, Walk.bind_apply, front']
    exact nulls
  show (Body.unpackFields _ layout'.entries (.reading layout') >>= fun scope => pure scope.value) ⟨cursor, around⟩ = _
  rw [Walk.bind_apply, fields]
  show Except.ok (behind.value, r.2) = _
  rw [filled, List.map_const']

/-- Fields behind an exit are dead. Where some fields at the front of an object leave the body, be it in the last of them, by what it
depends on or from deep inside, it makes no difference what stands behind them. With any other fields there the object is packed to the
same bytes, or for the same fault; and from the same input the same contents of the front are read, up to the same position, with null for
everything behind it. -/
theorem exit_ends_body (wellFormed : layout.WellFormed) (split : layout.entries = front ++ after)
    (looks : layout.Looks Γ.registry fun _ => True) (depth : Nat) :
    (∀ v s,
        (∀ scope s', Body.packFirst (Packing.candidate Γ (pack Γ depth)) v front (.writing layout v) s = .ok (scope, s') →
          scope.isExited = true) →
        ∀ layout' after', layout'.Continues layout front after' →
          pack Γ (depth + 1) (.object layout') v s = pack Γ (depth + 1) (.object layout) v s) ∧
      ∀ s scope s', Body.unpackFields (Unpacking.candidate Γ (unpack Γ depth)) front (.reading layout) s = .ok (scope, s') →
        scope.isExited = true →
        ∃ contents : List Value, contents.length = front.length ∧ ∀ layout' after', layout'.Continues layout front after' →
          unpack Γ (depth + 1) (.object layout') s =
            .ok (layout'.valueOf (contents ++ List.replicate after'.length .null), s') := by
  refine ⟨fun v s leaves layout' after' h => ?_, fun s scope s' read left => ?_⟩
  · have same : layout.Continues layout front after := ⟨rfl, wellFormed, split⟩
    rw [pack_front wellFormed split looks leaves h, pack_front wellFormed split looks leaves same]
  · have hrun : ∀ c, Walk.Leaves (Unpacking.candidate Γ (unpack Γ depth) c) := fun c => .resolve fun schema => unpack_leaves depth schema
    have whole : layout.entries = [] ++ (front ++ after) := split
    obtain ⟨contents, length, value⟩ := Body.unpackFields_value hrun wellFormed whole rfl layout.valueOf_nil.symm read
    exact ⟨contents, length, fun layout' after' h => unpack_front wellFormed split looks read left length value h⟩

end Codec

namespace Notice

/-- A kind, and a body that the kind selects: there is none for the first kind, and nothing behind it. -/
def front : Keyed Candidate :=
  [("kind", .number .uint8), ("body", .depend "kind" (.cases [(.int 0, .exit), (.int 1, .number .uint8)]))]

def layout : Layout := .named (front ++ [("rest", .number .uint16)])

/-- A text in the place of the rest. -/
def layout' : Layout := .named (front ++ [("text", .cstring .auto)])

def value : Value := .record [("kind", .int 0), ("rest", .int 7), ("text", .text "a")]

theorem plain : Site.Throughout Registry.standard .any (fun site => site.schema.isCustom = false) (.top (.object layout)) := by
  refine Site.throughout_object rfl ?_
  intro i key c schema hi hc
  match i with
  | 0 =>
    cases hi
    cases hc
    exact Site.throughout_number rfl
  | 1 =>
    cases hi
    cases hc
    refine Site.throughout_intro rfl ?_
    intro site' hr
    cases hr with
    | @selected _ _ v c schema _ _ _ selects resolved =>
      -- Of the two cases one is the exit and the other one a number.
      rw [Selector.select_cases, Builder.casesOf] at selects
      split at selects
      · next pair found =>
        have mem := List.mem_of_find?_eq_some found
        cases selects
        simp only [List.mem_cons, List.not_mem_nil, or_false] at mem
        rcases mem with rfl | rfl
        · cases resolved
          refine Site.throughout_intro rfl ?_
          intro site'' hr
          cases hr
        · cases resolved
          exact Site.throughout_number rfl
      · cases selects
  | 2 =>
    cases hi
    cases hc
    exact Site.throughout_number rfl
  | i + 3 => cases hi

theorem continues : layout'.Continues layout front [("text", .cstring .auto)] where
  kind := rfl
  wellFormed := by
    unfold layout' front Layout.WellFormed
    decide
  split := rfl

end Notice

/-- A notice of the first kind is its kind, whatever stands behind the body. -/
theorem Codec.exit_ends_body_notice :
    pack Packet.context 3 (.object Notice.layout') Notice.value ⟨#[], none⟩ = .ok ((), ⟨#[0], none⟩) ∧
      ∃ contents : List Value, contents.length = 2 ∧
        unpack Packet.context 3 (.object Notice.layout') ⟨⟨#[0, 7, 0], 0⟩, none⟩ =
          .ok (Notice.layout'.valueOf (contents ++ [.null]), ⟨⟨#[0, 7, 0], 1⟩, none⟩) := by
  have wellFormed : Notice.layout.WellFormed := by
    unfold Notice.layout Notice.front Layout.WellFormed
    decide
  have looks : Notice.layout.Looks Packet.context.registry fun _ => True := Layout.looks_of_plain Notice.plain
  obtain ⟨writes, reads⟩ := exit_ends_body wellFormed rfl looks 2
  refine ⟨?_, ?_⟩
  · refine (writes Notice.value ⟨#[], none⟩ ?_ Notice.layout' _ Notice.continues).trans rfl
    intro scope s' written
    have left : (Body.packFirst (Packing.candidate Packet.context (pack Packet.context 2)) Notice.value Notice.front
        (.writing Notice.layout Notice.value) ⟨#[], none⟩).map (fun r => r.1.isExited) = .ok true := rfl
    rw [written] at left
    exact Except.ok.inj left
  · obtain ⟨contents, length, behind⟩ := reads ⟨⟨#[0, 7, 0], 0⟩, none⟩ _ _ rfl rfl
    exact ⟨contents, length, behind Notice.layout' _ Notice.continues⟩

end WireLayout
