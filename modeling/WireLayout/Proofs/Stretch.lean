import WireLayout.Proofs.Alike
import WireLayout.Proofs.Omission

/-!
# Fields that two layouts have in common

A stretch of fields that an inner layout starts with, and that stands in an outer one as well, behind some fields that it asks for nothing.
Run in a body of either layout, the stretch does the same: it writes the same bytes (`Stretch.packFirst`, `Stretch.overlayFields`) and
reads the same contents (`Stretch.unpackFields`). What comes behind it in either layout does not matter, nor whether fields have names or
positions, as long as the values of the two bodies answer alike for the fields that the stretch may ask for.
-/

namespace WireLayout

open Walk

/-- Of the body around, the fields of a layout ask for fields of these names only, for every value that the layout admits. -/
def Layout.Looks (r : Registry) (names : String → Prop) (layout : Layout) : Prop :=
  ∀ v, Body.checkShape layout v = .ok () → ∀ before key c after schema, layout.entries = before ++ (key, c) :: after →
    r.resolve c = .ok schema → Site.ThroughoutBody r v (Site.Looks names) ⟨schema, some ⟨layout, before⟩, false⟩

/-- That is so where no other names are asked for at all. -/
theorem Layout.looks_of_throughout {r : Registry} {names : String → Prop} {layout : Layout}
    (inside : Site.Throughout r .any (Site.Looks names) (.top (.object layout))) : layout.Looks r names := by
  intro v _ before key c after schema split resolved
  exact (inside.of_runs (.field split resolved)).body (fun _ here => here) v

/-- Without user-defined kinds inside, nothing but fields is asked for. -/
theorem Layout.looks_of_plain {r : Registry} {layout : Layout}
    (plain : Site.Throughout r .any (fun site => site.schema.isCustom = false) (.top (.object layout))) :
    layout.Looks r fun _ => True := by
  refine looks_of_throughout (plain.mono fun site custom => ?_)
  unfold Site.Looks
  split
  · trivial
  · trivial
  · next hschema => simp [hschema, Schema.isCustom] at custom
  · trivial

/-- The shape that is asked for depends on the kind of the layout only. -/
theorem Layout.checkShape_kind {layout layout' : Layout} (kind : layout'.isPositional = layout.isPositional) (v : Value) :
    Body.checkShape layout' v = Body.checkShape layout v := by
  cases layout with
  | named fields =>
    cases layout' with
    | named fields' => cases v <;> rfl
    | positional items' => cases kind
  | positional items =>
    cases layout' with
    | named fields' => cases kind
    | positional items' => cases v <;> rfl

theorem Layout.checkShape_valueOf (layout : Layout) (contents : List Value) :
    Body.checkShape layout (layout.valueOf contents) = .ok () := by
  cases layout <;> rfl

/-- Fields that an inner layout starts with, and that an outer one has behind some others. The fields in common have names that may be
asked for, and those in front of them do not. -/
structure Stretch where
  names : String → Prop
  inner : Layout
  outer : Layout
  lead : Keyed Candidate
  fields : Keyed Candidate
  {after after' : Keyed Candidate}
  inner_wellFormed : inner.WellFormed
  outer_wellFormed : outer.WellFormed
  inner_split : inner.entries = fields ++ after
  outer_split : outer.entries = lead ++ (fields ++ after')
  named : ∀ key ∈ Keyed.keys fields, names key
  apart : ∀ key ∈ Keyed.keys lead, ¬names key

namespace Stretch

variable (S : Stretch) {Γ : Context} {v v' : Value} {s t : Scope} {done rest : Keyed Candidate} {key : String} {c : Candidate}

section

variable {S}

theorem inner_at (split : S.fields = done ++ (key, c) :: rest) : S.inner.entries = done ++ (key, c) :: (rest ++ S.after) := by
  rw [S.inner_split, split, List.append_assoc]
  rfl

theorem outer_at (split : S.fields = done ++ (key, c) :: rest) :
    S.outer.entries = (S.lead ++ done) ++ (key, c) :: (rest ++ S.after') := by
  rw [S.outer_split, split, List.append_assoc, List.append_assoc]
  rfl

theorem mem_keys (split : S.fields = done ++ (key, c) :: rest) : key ∈ Keyed.keys S.fields := by
  rw [split, Keyed.keys_append]
  exact List.mem_append_right _ List.mem_cons_self

/-- A field in common has the same schema in either layout. -/
theorem get?_outer (common : key ∈ Keyed.keys S.fields) : S.outer.get? key = S.inner.get? key := by
  obtain ⟨⟨_, c⟩, hmem, rfl⟩ := List.mem_map.mp common
  obtain ⟨done, rest, split⟩ := List.append_of_mem hmem
  rw [Layout.get?_of_split S.outer_wellFormed (outer_at split), Layout.get?_of_split S.inner_wellFormed (inner_at split)]

end

/-! ## Writing -/

/-- Two bodies that write the stretch, of the inner and of the outer layout. -/
structure Writing (v v' : Value) (s t : Scope) : Prop where
  inner : s.layout = S.inner
  outer : t.layout = S.outer
  value : s.value = v
  value' : t.value = v'
  exited : t.isExited = s.isExited
  offset? : ∀ name, name ∉ Keyed.keys S.lead → t.offset? name = s.offset? name
  started : ∀ name offset, s.offset? name = some offset → name ∈ Keyed.keys S.fields

variable {S}

namespace Writing

theorem leave (h : S.Writing v v' s t) (fires : Bool) : S.Writing v v' (s.leave fires) (t.leave fires) :=
  { h with exited := by simp only [Scope.leave, h.exited] }

theorem mark (h : S.Writing v v' s t) (common : key ∈ Keyed.keys S.fields) (offset : Nat) :
    S.Writing v v' (s.mark key offset) (t.mark key offset) where
  inner := h.inner
  outer := h.outer
  value := h.value
  value' := h.value'
  exited := h.exited
  offset? name apart := by
    have same := h.offset? name apart
    simp only [Scope.offset?, Scope.mark, Keyed.lookup_insert] at same ⊢
    rw [same]
  started name offset' found := by
    simp only [Scope.offset?, Scope.mark, Keyed.lookup_insert] at found
    split at found
    · next same => exact same ▸ common
    · exact h.started name offset' found

/-- A field that was started is one in common, so that either layout has the same schema for it. -/
theorem alike (h : S.Writing v v' s t) (agree : ∀ name, S.names name → v'.get? name = v.get? name) : s.Alike S.names t where
  field? name named := by
    rw [Scope.field?, Scope.field?, h.value, h.value', agree name named]
  counter? name named := by
    have place := h.offset? name fun hlead => S.apart name hlead named
    rw [Scope.counter?, Scope.counter?, place]
    cases found : s.offset? name with
    | none => cases t.fieldSchema? name <;> cases s.fieldSchema? name <;> rfl
    | some offset => rw [Scope.fieldSchema?, Scope.fieldSchema?, h.inner, h.outer, get?_outer (h.started name offset found)]

theorem field (h : S.Writing v v' s t) (agree : ∀ name, S.names name → v'.get? name = v.get? name)
    (shape : Body.checkShape S.inner v = .ok ()) (looks : S.inner.Looks Γ.registry S.names)
    (split : S.fields = done ++ (key, c) :: rest) (depth : Nat) (content : Value) :
    SameIn s t (Packing.candidate Γ (Codec.pack Γ depth) c content) := by
  refine SameIn.resolve fun schema hschema => ?_
  have site := looks v shape done key c _ schema (inner_at split) hschema
  rw [← h.value] at site
  exact Codec.pack_sameIn depth (h.alike agree) site (congrArg some h.inner.symm) content

end Writing

/-- What is left of the stretch is written the same in either body. -/
theorem packFirst_from (agree : ∀ name, S.names name → v'.get? name = v.get? name) (shape : Body.checkShape S.inner v = .ok ())
    (looks : S.inner.Looks Γ.registry S.names) (depth : Nat) (split : S.fields = done ++ rest) (h : S.Writing v v' s t) (out : Bytes)
    (around around' : Option Scope) :
    Both (fun a b => S.Writing v v' a.1 b.1 ∧ b.2.medium = a.2.medium ∧ a.2.scope = around ∧ b.2.scope = around')
      (Body.packFirst (Packing.candidate Γ (Codec.pack Γ depth)) v rest s ⟨out, around⟩)
      (Body.packFirst (Packing.candidate Γ (Codec.pack Γ depth)) v' rest t ⟨out, around'⟩) := by
  induction rest generalizing done s t out with
  | nil => exact .ok ⟨h, rfl, rfl, rfl⟩
  | cons entry rest ih =>
    obtain ⟨key, c⟩ := entry
    have exited := h.exited
    cases hexit : s.isExited with
    | true =>
      rw [hexit] at exited
      rw [Body.packFirst_exited hexit, Body.packFirst_exited exited]
      exact .ok ⟨h, rfl, rfl, rfl⟩
    | false =>
      rw [hexit] at exited
      have marked := h.mark (mem_keys split) out.size
      have field : Both (SameEnd (s.mark key out.size) (t.mark key out.size))
          (Packing.candidate Γ (Codec.pack Γ depth) c ((v.get? key).getD .null) ⟨out, some (s.mark key out.size)⟩)
          (Packing.candidate Γ (Codec.pack Γ depth) c ((v'.get? key).getD .null) ⟨out, some (t.mark key out.size)⟩) := by
        have step := marked.field agree shape looks split depth ((v.get? key).getD .null) out false
        rw [Scope.leave_false, Scope.leave_false] at step
        rw [agree key (S.named key (mem_keys split))]
        exact step
      refine Body.both_packFirst_cons hexit exited field ?_
      rintro ⟨⟨⟩, out₁, inner⟩ ⟨⟨⟩, out₂, inner'⟩ ends
      obtain rfl : out₂ = out₁ := ends.medium
      obtain ⟨fires, rfl, rfl⟩ := ends.leaves
      exact ih (Keyed.split_next split) (marked.leave fires) out₂

/-- The stretch is written the same in either body. -/
theorem packFirst (agree : ∀ name, S.names name → v'.get? name = v.get? name) (shape : Body.checkShape S.inner v = .ok ())
    (looks : S.inner.Looks Γ.registry S.names) (depth : Nat) (h : S.Writing v v' s t) (out : Bytes) (around around' : Option Scope) :
    Both (fun a b => S.Writing v v' a.1 b.1 ∧ b.2.medium = a.2.medium ∧ a.2.scope = around ∧ b.2.scope = around')
      (Body.packFirst (Packing.candidate Γ (Codec.pack Γ depth)) v S.fields s ⟨out, around⟩)
      (Body.packFirst (Packing.candidate Γ (Codec.pack Γ depth)) v' S.fields t ⟨out, around'⟩) :=
  packFirst_from agree shape looks depth (List.nil_append S.fields).symm h out around around'

/-- Where the stretch is all that is left to write, the outcome is the same. -/
theorem packFields (agree : ∀ name, S.names name → v'.get? name = v.get? name) (shape : Body.checkShape S.inner v = .ok ())
    (looks : S.inner.Looks Γ.registry S.names) (depth : Nat) (h : S.Writing v v' s t) (state : WalkState Bytes) :
    Body.packFields (Packing.candidate Γ (Codec.pack Γ depth)) v' S.fields t state =
      Body.packFields (Packing.candidate Γ (Codec.pack Γ depth)) v S.fields s state := by
  obtain ⟨out, around⟩ := state
  rw [Body.packFields_eq, Body.packFields_eq]
  refine (Walk.both_bind (packFirst agree shape looks depth h out around around) ?_).eq.symm
  rintro ⟨_, ⟨out₁, _⟩⟩ ⟨_, ⟨out₂, _⟩⟩ - ⟨-, rfl, rfl, rfl⟩
  exact .ok rfl

/-- What is left of the stretch in a union is written the same as well. -/
theorem overlayFields_from (agree : ∀ name, S.names name → v'.get? name = v.get? name) (shape : Body.checkShape S.inner v = .ok ())
    (looks : S.inner.Looks Γ.registry S.names) (depth : Nat) (split : S.fields = done ++ rest) (h : S.Writing v v' s t)
    (region : Bytes) :
    Body.overlayFields (Packing.candidate Γ (Codec.pack Γ depth)) v' rest t region =
      Body.overlayFields (Packing.candidate Γ (Codec.pack Γ depth)) v rest s region := by
  induction rest generalizing done s t region with
  | nil => rfl
  | cons entry rest ih =>
    obtain ⟨key, c⟩ := entry
    have next := Keyed.split_next split
    rw [Body.overlayFields, Body.overlayFields, h.exited, agree key (S.named key (mem_keys split))]
    split
    · rfl
    · split
      · exact ih next h region
      · next content _ =>
        funext state
        obtain ⟨out, around⟩ := state
        have field : SameIn s t (Packing.candidate Γ (Codec.pack Γ depth) c content) := h.field agree shape looks split depth content
        refine (Walk.both_bind ((Packing.sameIn_collect field).within out around around) ?_).eq.symm
        rintro ⟨⟨written, _⟩, ⟨out₁, _⟩⟩ ⟨⟨written', _⟩, ⟨out₂, _⟩⟩ - ⟨same, ⟨fires, rfl, rfl⟩, medium, rfl, rfl⟩
        obtain rfl : written' = written := same
        obtain rfl : out₂ = out₁ := medium
        exact Both.of_eq (congrFun (ih next (h.leave fires) _).symm _)

theorem overlayFields (agree : ∀ name, S.names name → v'.get? name = v.get? name) (shape : Body.checkShape S.inner v = .ok ())
    (looks : S.inner.Looks Γ.registry S.names) (depth : Nat) (h : S.Writing v v' s t) (region : Bytes) :
    Body.overlayFields (Packing.candidate Γ (Codec.pack Γ depth)) v' S.fields t region =
      Body.overlayFields (Packing.candidate Γ (Codec.pack Γ depth)) v S.fields s region :=
  overlayFields_from agree shape looks depth (List.nil_append S.fields).symm h region

/-! ## Reading -/

variable (S)

/-- Two bodies that read the stretch: the outer one has some contents before those that both have read. -/
structure Reading (prior contents : List Value) (s t : Scope) : Prop where
  value : s.value = S.inner.valueOf contents
  value' : t.value = S.outer.valueOf (prior ++ contents)
  exited : t.isExited = s.isExited

/-- What is read of the stretch so far shows alike in either body. -/
def Shows (prior : List Value) : Prop :=
  ∀ contents name, contents.length ≤ S.fields.length → S.names name →
    (S.outer.valueOf (prior ++ contents)).get? name = (S.inner.valueOf contents).get? name

variable {S} {prior contents : List Value}

namespace Reading

theorem leave (h : S.Reading prior contents s t) (fires : Bool) : S.Reading prior contents (s.leave fires) (t.leave fires) :=
  { h with exited := by simp only [Scope.leave, h.exited] }

theorem push (h : S.Reading prior contents s t) (led : prior.length = S.lead.length) (split : S.fields = done ++ (key, c) :: rest)
    (read : contents.length = done.length) (v : Value) : S.Reading prior (contents ++ [v]) (s.push key v) (t.push key v) where
  value := Layout.push_value S.inner_wellFormed (inner_at split) read h.value v
  value' := by
    have read' : (prior ++ contents).length = (S.lead ++ done).length := by rw [List.length_append, List.length_append, led, read]
    rw [Layout.push_value S.outer_wellFormed (outer_at split) read' h.value' v, List.append_assoc]
  exited := by rw [Scope.isExited_push, Scope.isExited_push, h.exited]

theorem field (h : S.Reading prior contents s t) (shows : S.Shows prior) (looks : S.inner.Looks Γ.registry S.names)
    (split : S.fields = done ++ (key, c) :: rest) (read : contents.length = done.length) (depth : Nat) :
    SameIn s t (Unpacking.candidate Γ (Codec.unpack Γ depth) c) := by
  refine SameIn.resolve fun schema hschema => ?_
  have site := looks _ (S.inner.checkShape_valueOf contents) done key c _ schema (inner_at split) hschema
  rw [← h.value] at site
  refine Codec.unpack_sameIn depth (fun name named => ?_) site
  have few : contents.length ≤ S.fields.length := by
    rw [split, List.length_append, read]
    exact Nat.le_add_right _ _
  rw [Scope.field?, Scope.field?, h.value, h.value', shows contents name few named]

end Reading

/-- A way of reading fields that reads each of the stretch the same in either body. -/
structure ReadsAlike (S : Stretch) (prior : List Value) (readField : Candidate → Unpacking Value) : Prop where
  field {done rest : Keyed Candidate} {key : String} {c : Candidate} {contents : List Value} {s t : Scope}
    (split : S.fields = done ++ (key, c) :: rest) (read : contents.length = done.length) (h : S.Reading prior contents s t) :
    SameIn s t (readField c)

theorem readsAlike (shows : S.Shows prior) (looks : S.inner.Looks Γ.registry S.names) (depth : Nat) :
    S.ReadsAlike prior (Unpacking.candidate Γ (Codec.unpack Γ depth)) where
  field split read h := h.field shows looks split read depth

/-- The fields of a union are read from an input of their own. -/
theorem ReadsAlike.window {readField : Candidate → Unpacking Value} (alike : S.ReadsAlike prior readField) (window : Cursor) :
    S.ReadsAlike prior fun field => do
      let (v, _) ← Walk.aside window (readField field)
      return v where
  field split read h := ((alike.field split read h).aside window).bind fun _ => SameIn.pure _

theorem unpackFields_from {readField : Candidate → Unpacking Value} (led : prior.length = S.lead.length)
    (alike : S.ReadsAlike prior readField)
    (split : S.fields = done ++ rest) (read : contents.length = done.length) (h : S.Reading prior contents s t) (cursor : Cursor)
    (around around' : Option Scope) :
    Both (fun a b => (∃ more, more.length = rest.length ∧ S.Reading prior (contents ++ more) a.1 b.1) ∧ b.2.medium = a.2.medium ∧
        a.2.scope = around ∧ b.2.scope = around')
      (Body.unpackFields readField rest s ⟨cursor, around⟩) (Body.unpackFields readField rest t ⟨cursor, around'⟩) := by
  induction rest generalizing done contents s t cursor with
  | nil => exact .ok ⟨⟨[], rfl, by rwa [List.append_nil]⟩, rfl, rfl, rfl⟩
  | cons entry rest ih =>
    obtain ⟨key, c⟩ := entry
    have behind : ∀ {s t} (v : Value) (cursor : Cursor), S.Reading prior contents s t →
        Both (fun a b => (∃ more, more.length = rest.length + 1 ∧ S.Reading prior (contents ++ more) a.1 b.1) ∧
            b.2.medium = a.2.medium ∧ a.2.scope = around ∧ b.2.scope = around')
          (Body.unpackFields readField rest (s.push key v) ⟨cursor, around⟩)
          (Body.unpackFields readField rest (t.push key v) ⟨cursor, around'⟩) := by
      intro s t v cursor h
      refine (ih (Keyed.split_next split) (Keyed.length_next read v (key, c)) (h.push led split read v) cursor).mono ?_
      rintro a b ⟨⟨more, length, reading⟩, rest⟩
      refine ⟨⟨v :: more, congrArg (· + 1) length, ?_⟩, rest⟩
      rwa [List.append_assoc] at reading
    rw [Body.unpackFields, Body.unpackFields, h.exited]
    split
    · exact behind .null cursor h
    · refine Walk.both_bind ((alike.field split read h).within cursor around around') ?_
      rintro ⟨⟨v, _⟩, ⟨cursor₁, _⟩⟩ ⟨⟨v', _⟩, ⟨cursor₂, _⟩⟩ - ⟨same, ⟨fires, rfl, rfl⟩, medium, rfl, rfl⟩
      obtain rfl : v' = v := same
      obtain rfl : cursor₂ = cursor₁ := medium
      exact behind v' cursor₂ (h.leave fires)

/-- So the whole stretch is read the same. -/
theorem unpackFields {readField : Candidate → Unpacking Value} (led : prior.length = S.lead.length)
    (alike : S.ReadsAlike prior readField) (h : S.Reading prior [] s t) (cursor : Cursor) (around around' : Option Scope) :
    Both (fun a b => (∃ contents, contents.length = S.fields.length ∧ S.Reading prior contents a.1 b.1) ∧ b.2.medium = a.2.medium ∧
        a.2.scope = around ∧ b.2.scope = around')
      (Body.unpackFields readField S.fields s ⟨cursor, around⟩) (Body.unpackFields readField S.fields t ⟨cursor, around'⟩) :=
  unpackFields_from led alike (List.nil_append S.fields).symm rfl h cursor around around'

/-- Where the inner body reads it, so does the outer one, up to the same position. -/
theorem unpackFields_ok {readField : Candidate → Unpacking Value} (led : prior.length = S.lead.length)
    (alike : S.ReadsAlike prior readField) (h : S.Reading prior [] s t) {cursor : Cursor} {around : Option Scope}
    {r : Scope × WalkState Cursor} (read : Body.unpackFields readField S.fields s ⟨cursor, around⟩ = .ok r) :
    ∃ scope contents, Body.unpackFields readField S.fields t ⟨cursor, around⟩ = .ok (scope, r.2) ∧
      contents.length = S.fields.length ∧ S.Reading prior contents r.1 scope := by
  have both := unpackFields led alike h cursor around around
  rw [read] at both
  obtain ⟨⟨scope, cursor', around'⟩, read', ⟨contents, length, reading⟩, same, inner, outer⟩ := both.exists_of_ok
  refine ⟨scope, contents, ?_, length, reading⟩
  have ends : (⟨cursor', around'⟩ : WalkState Cursor) = r.2 := by
    obtain ⟨_, cursor'', around''⟩ := r
    cases same
    cases inner
    cases outer
    rfl
  rw [read', ends]

end Stretch

end WireLayout
