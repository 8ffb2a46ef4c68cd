import WireLayout.Proofs.Leaving
import WireLayout.Proofs.Parts

/-!
# Dependent fields that look forwards

A dependent field looks at the value of the body around it. While a body is read, this value has just the fields that were read
(`unpackFields_value`), so a dependent field that names none of these fails. While a body is written, it is the value that was given,
with all its fields (`packFirst_value`), so such a field is written whenever the value has the field it names. The two directions
therefore differ (`pack_forwardDepend`): some values are written that can never be read back (`exited_of_unpack`, `pack_unreadable`).
-/

namespace WireLayout

open Codec

/-! ## What is read so far -/

namespace Layout

/-- The layout of the first fields. -/
def upTo (layout : Layout) (n : Nat) : Layout :=
  match layout with
  | .named fields => .named (fields.take n)
  | .positional items => .positional (items.take n)

theorem length_entries (layout : Layout) : layout.entries.length = layout.size := by
  have hitems : ∀ start items, (positionEntries start items).length = items.length := by
    intro start items
    induction items generalizing start with
    | nil => rfl
    | cons c rest ih => exact congrArg (· + 1) (ih (start + 1))
  cases layout with
  | named fields => rfl
  | positional items => exact hitems 0 items

/-- The contents of the first fields are found under the keys of these fields, and under no other. -/
theorem get?_valueOf_eq_none {layout : Layout} {contents : List Value} (hle : contents.length ≤ layout.size) {key : String} :
    (layout.valueOf contents).get? key = none ↔ (layout.upTo contents.length).get? key = none := by
  cases layout with
  | named fields =>
    show ((Keyed.keys fields).zip contents).lookup key = none ↔ (fields.take contents.length).lookup key = none
    clear hle
    induction fields generalizing contents with
    | nil => simp [Keyed.keys]
    | cons field fields ih =>
      obtain ⟨k, c⟩ := field
      cases contents with
      | nil => simp
      | cons v contents =>
        have hzip : (Keyed.keys ((k, c) :: fields)).zip (v :: contents) = (k, v) :: (Keyed.keys fields).zip contents := rfl
        rw [hzip, List.length_cons, List.take_succ_cons, Keyed.lookup_cons, Keyed.lookup_cons]
        by_cases hk : key = k
        · simp [hk]
        · rw [if_neg hk, if_neg hk]
          exact ih
  | positional items =>
    have hitems : contents.length ≤ items.length := hle
    show Position.lookup key contents = none ↔ Position.lookup key (items.take contents.length) = none
    rw [Position.lookup, Position.lookup]
    cases Position.ofKey? key with
    | none => simp
    | some i =>
      show contents[i]? = none ↔ (items.take contents.length)[i]? = none
      rw [List.getElem?_eq_none_iff, List.getElem?_eq_none_iff, List.length_take, Nat.min_eq_left hitems]

/-- Every field but the first ones has a key that these do not have. -/
theorem get?_upTo_eq_none {layout : Layout} (hwf : layout.WellFormed) {before rest : Keyed Candidate}
    (split : layout.entries = before ++ rest) {key : String} (hmem : key ∈ Keyed.keys rest) :
    (layout.upTo before.length).get? key = none := by
  obtain ⟨⟨_, c⟩, hentry, rfl⟩ := List.mem_map.mp hmem
  obtain ⟨pre, post, rfl⟩ := List.append_of_mem hentry
  rw [← List.append_assoc] at split
  cases layout with
  | named fields =>
    have hkey := not_mem_keys_of_split hwf split
    rw [Keyed.keys_append, List.mem_append, not_or] at hkey
    have htake : fields.take before.length = before := by
      have hfields : fields = (before ++ pre) ++ _ := split
      rw [hfields, List.append_assoc, List.take_left]
    show (fields.take before.length).lookup _ = none
    rw [htake, List.lookup_eq_none_iff]
    intro entry hbefore
    refine bne_iff_ne.mpr ?_
    rintro rfl
    exact hkey.1 (List.mem_map_of_mem hbefore)
  | positional items =>
    obtain ⟨hkey, -, hlt⟩ := positional_of_split hwf split
    have hpast : (items.take before.length).length ≤ (before ++ pre).length := by
      rw [List.length_take, List.length_append]
      omega
    show Position.lookup _ (items.take before.length) = none
    rw [hkey, Position.lookup_key hlt]
    exact List.getElem?_eq_none hpast

end Layout

namespace Body

open Walk

variable {layout : Layout}

/-- Behind some fields that were read, the value of the body holds one content for each of them. -/
theorem unpackFields_value {run : Candidate → Unpacking Value} (hrun : ∀ c, Leaves (run c)) (hwf : layout.WellFormed)
    {before part rest : Keyed Candidate} (split : layout.entries = before ++ (part ++ rest)) {contents : List Value}
    (hlength : contents.length = before.length) {scope : Scope} (hvalue : scope.value = layout.valueOf contents)
    {s : WalkState Cursor} {r : Scope × WalkState Cursor} (h : unpackFields run part scope s = .ok r) :
    ∃ more, more.length = part.length ∧ r.1.value = layout.valueOf (contents ++ more) := by
  induction part generalizing before contents scope s with
  | nil =>
    cases h
    exact ⟨[], rfl, by rw [List.append_nil, hvalue]⟩
  | cons entry part ih =>
    obtain ⟨key, c⟩ := entry
    have hnext : ∀ (v : Value) (behind : Scope) (s' : WalkState Cursor), behind.value = scope.value →
        unpackFields run part (behind.push key v) s' = .ok r →
        ∃ more, more.length = part.length + 1 ∧ r.1.value = layout.valueOf (contents ++ more) := by
      intro v behind s' hbehind hrest
      have hpush := Layout.push_value hwf split hlength (hbehind.trans hvalue) v
      obtain ⟨more, hmore, hr⟩ := ih (Keyed.split_next split) (Keyed.length_next hlength v (key, c)) hpush hrest
      refine ⟨v :: more, congrArg (· + 1) hmore, ?_⟩
      rw [hr, List.append_assoc]
      rfl
    cases hexit : scope.isExited with
    | true =>
      rw [unpackFields, if_pos hexit] at h
      exact hnext .null scope s rfl h
    | false =>
      obtain ⟨v, ⟨medium, inner⟩, hfield, hrest⟩ := (unpackFields_cons_eq_ok hexit).mp h
      obtain ⟨fires, hinner⟩ := hrun c _ v _ hfield
      cases hinner
      exact hnext v (scope.leave fires) _ rfl hrest

/-- Behind some fields that were written, the value of the body is the one that was given. -/
theorem packFirst_value {run : Candidate → Value → Packing Unit} (hrun : ∀ c v, Leaves (run c v)) {v : Value}
    {entries : Keyed Candidate} {scope : Scope} {s : WalkState Bytes} {r : Scope × WalkState Bytes}
    (h : packFirst run v entries scope s = .ok r) : r.1.value = scope.value := by
  induction entries generalizing scope s with
  | nil =>
    cases h
    rfl
  | cons entry rest ih =>
    obtain ⟨key, c⟩ := entry
    obtain ⟨out, around⟩ := s
    cases hexit : scope.isExited with
    | true =>
      rw [packFirst_exited hexit] at h
      cases h
      rfl
    | false =>
      rw [packFirst_cons hexit] at h
      cases hfield : run c ((v.get? key).getD .null) ⟨out, some (scope.mark key out.size)⟩ with
      | error stop =>
        rw [hfield] at h
        cases h
      | ok result =>
        obtain ⟨⟨⟩, out', inner⟩ := result
        rw [hfield] at h
        obtain ⟨fires, hinner⟩ := hrun c _ _ _ _ hfield
        cases hinner
        exact (ih h).trans rfl

end Body

/-! ## A field that looks forwards -/

/-- A dependent field of a body that names no field before it: itself, a later field, or no field at all. -/
structure ForwardDepend (Γ : Context) where
  layout : Layout
  before : Keyed Candidate
  key : String
  field : Candidate
  after : Keyed Candidate
  name : String
  selector : Selector
  wellFormed : layout.WellFormed
  split : layout.entries = before ++ (key, field) :: after
  depends : Γ.registry.resolve field = .ok (.depend name selector)
  forward : (layout.upTo before.length).get? name = none

variable {Γ : Context}

/-- A sibling that is not there stops the run. -/
theorem Walk.sibling_eq_error {μ : Type} {kind name : String} {scope : Scope} (h : scope.field? name = none) (medium : μ) :
    (sibling kind name : Walk μ Value) ⟨medium, some scope⟩ = .error (.fault (.undefinedDependency name)) := by
  rw [sibling_eq_onScope]
  simp only [onScope, h]

namespace ForwardDepend

variable (D : ForwardDepend Γ) {scope : Scope}

/-- Nothing that was read before the field is found under the name. -/
theorem get?_valueOf {contents : List Value} (hlength : contents.length = D.before.length) :
    (D.layout.valueOf contents).get? D.name = none := by
  have hle : contents.length ≤ D.layout.size := by
    rw [← Layout.length_entries, D.split, List.length_append, hlength]
    exact Nat.le_add_right _ _
  rw [Layout.get?_valueOf_eq_none hle, hlength]
  exact D.forward

/-- When the field is reached, reading fails. -/
theorem unpack_object {depth : Nat} {s s' : WalkState Cursor}
    (hfirst : Body.unpackFields (Unpacking.candidate Γ (unpack Γ (depth + 1))) D.before (.reading D.layout) s = .ok (scope, s'))
    (hexit : scope.isExited = false) :
    unpack Γ (depth + 2) (.object D.layout) s = .error (.fault (.undefinedDependency D.name)) := by
  have hrun : ∀ c, Walk.Leaves (Unpacking.candidate Γ (unpack Γ (depth + 1)) c) :=
    fun c => .resolve fun schema => unpack_leaves (depth + 1) schema
  have hsplit : D.layout.entries = [] ++ (D.before ++ (D.key, D.field) :: D.after) := D.split
  obtain ⟨contents, hlength, hvalue⟩ := Body.unpackFields_value hrun D.wellFormed hsplit rfl D.layout.valueOf_nil.symm hfirst
  have hundefined : scope.field? D.name = none := by
    rw [Scope.field?, hvalue, List.nil_append]
    exact D.get?_valueOf hlength
  have hfield : Unpacking.candidate Γ (unpack Γ (depth + 1)) D.field ⟨s'.medium, some scope⟩ =
      .error (.fault (.undefinedDependency D.name)) := by
    rw [Unpacking.candidate_eq D.depends]
    show Sibling.unpackDepend Γ (unpack Γ depth) D.name D.selector ⟨s'.medium, some scope⟩ = _
    rw [Sibling.unpackDepend, Walk.bind_apply, Walk.sibling_eq_error hundefined]
  show Body.unpackObject (Unpacking.candidate Γ (unpack Γ (depth + 1))) D.layout s = _
  rw [Body.unpackObject, D.split, Body.unpackFields_append, Walk.bind_apply, Walk.bind_apply, hfirst]
  simp only [Body.unpackFields, hexit, Bool.false_eq_true, if_false, Walk.bind_apply, Walk.within, hfield]

/-- So a value is read only where a field in front has left the body. -/
theorem exited_of_unpack {depth : Nat} {s : WalkState Cursor} {r : Value × WalkState Cursor}
    (h : unpack Γ (depth + 2) (.object D.layout) s = .ok r) :
    ∃ scope s', Body.unpackFields (Unpacking.candidate Γ (unpack Γ (depth + 1))) D.before (.reading D.layout) s = .ok (scope, s') ∧
      scope.isExited = true := by
  have hobject : Body.unpackObject (Unpacking.candidate Γ (unpack Γ (depth + 1))) D.layout s = .ok r := h
  rw [Body.unpackObject, D.split, Body.unpackFields_append] at hobject
  obtain ⟨_, _, hfields, -⟩ := Walk.bind_eq_ok.mp hobject
  obtain ⟨scope, s', hfirst, -⟩ := Walk.bind_eq_ok.mp hfields
  refine ⟨scope, s', hfirst, ?_⟩
  cases hexit : scope.isExited with
  | true => rfl
  | false =>
    rw [D.unpack_object hfirst hexit] at h
    cases h

/-- When the field is reached, writing goes on with it in the body around, and then with the fields behind it. -/
theorem pack_object {depth : Nat} {v : Value} (hshape : Body.checkShape D.layout v = .ok ()) {s s' : WalkState Bytes}
    (hfirst : Body.packFirst (Packing.candidate Γ (pack Γ (depth + 1))) v D.before (.writing D.layout v) s = .ok (scope, s'))
    (hexit : scope.isExited = false) :
    pack Γ (depth + 2) (.object D.layout) v s =
      (Walk.within (scope.mark D.key s'.medium.size) (pack Γ (depth + 1) (.depend D.name D.selector) ((v.get? D.key).getD .null)) >>=
        fun p => Body.packFields (Packing.candidate Γ (pack Γ (depth + 1))) v D.after p.2) s' := by
  show Body.packObject (Packing.candidate Γ (pack Γ (depth + 1))) D.layout v s = _
  rw [Body.packObject, hshape, D.split, Body.packFields_append]
  show (Body.packFirst _ v D.before (.writing D.layout v) >>= _) s = _
  rw [Walk.bind_apply, hfirst]
  simp only [Body.packFields, hexit, Bool.false_eq_true, if_false, Walk.bind_apply, Packing.position, Packing.candidate_eq D.depends]

/-- A dependent field that names no field before it, in either direction. When it is reached, reading fails: the field it names is
undefined. Writing fails like this as well where the value that is given has no field of that name. Where it has one, even one that
stands behind the dependent field, the dependent field is written by the schema that is selected for it, and then the fields behind
it. -/
theorem pack_forwardDepend (depth : Nat) :
    (∀ s scope s', Body.unpackFields (Unpacking.candidate Γ (unpack Γ (depth + 1))) D.before (.reading D.layout) s = .ok (scope, s') →
        scope.isExited = false → unpack Γ (depth + 2) (.object D.layout) s = .error (.fault (.undefinedDependency D.name))) ∧
      ∀ v s scope s', Body.checkShape D.layout v = .ok () →
        Body.packFirst (Packing.candidate Γ (pack Γ (depth + 1))) v D.before (.writing D.layout v) s = .ok (scope, s') →
        scope.isExited = false →
        (v.get? D.name = none → pack Γ (depth + 2) (.object D.layout) v s = .error (.fault (.undefinedDependency D.name))) ∧
          ∀ w c schema, v.get? D.name = some w → D.selector.select w = .ok c → Γ.registry.resolve c = .ok schema →
            pack Γ (depth + 2) (.object D.layout) v s =
              (Walk.within (scope.mark D.key s'.medium.size) (pack Γ depth schema ((v.get? D.key).getD .null)) >>=
                fun p => Body.packFields (Packing.candidate Γ (pack Γ (depth + 1))) v D.after p.2) s' := by
  refine ⟨fun s scope s' hfirst hexit => D.unpack_object hfirst hexit, ?_⟩
  intro v s scope s' hshape hfirst hexit
  have hrun : ∀ c v, Walk.Leaves (Packing.candidate Γ (pack Γ (depth + 1)) c v) :=
    fun c v => .resolve fun schema => pack_leaves (depth + 1) schema v
  have hvalue : scope.value = v := Body.packFirst_value hrun hfirst
  have hfield : (scope.mark D.key s'.medium.size).field? D.name = v.get? D.name := congrArg (Value.get? · D.name) hvalue
  rw [D.pack_object hshape hfirst hexit, Walk.bind_apply, Walk.within]
  refine ⟨?_, ?_⟩
  · intro hnone
    have hdepend : pack Γ (depth + 1) (.depend D.name D.selector) ((v.get? D.key).getD .null)
        ⟨s'.medium, some (scope.mark D.key s'.medium.size)⟩ = .error (.fault (.undefinedDependency D.name)) := by
      show Sibling.packDepend Γ (pack Γ depth) D.name D.selector _ _ = _
      rw [Sibling.packDepend, Walk.bind_apply, Walk.sibling_eq_error (hfield.trans hnone)]
    rw [hdepend]
  · intro w c schema hw hselect hc
    have hdepend : pack Γ (depth + 1) (.depend D.name D.selector) ((v.get? D.key).getD .null)
        ⟨s'.medium, some (scope.mark D.key s'.medium.size)⟩ =
          pack Γ depth schema ((v.get? D.key).getD .null) ⟨s'.medium, some (scope.mark D.key s'.medium.size)⟩ :=
      Sibling.packDepend_apply (hfield.trans hw) hselect hc _ _
    rw [hdepend, Walk.bind_apply, Walk.within]

end ForwardDepend

namespace Chunk

/-- Bytes in front of their size. -/
def layout : Layout := .named [("data", .depend "size" (.application .bytes [])), ("size", .number .uint8)]

theorem layout_wellFormed : layout.WellFormed := by
  unfold layout Layout.WellFormed
  decide

def forwardDepend : ForwardDepend Packet.context where
  layout := layout
  before := []
  key := "data"
  field := .depend "size" (.application .bytes [])
  after := [("size", .number .uint8)]
  name := "size"
  selector := .application .bytes []
  wellFormed := layout_wellFormed
  split := rfl
  depends := rfl
  forward := by
    have hsplit : layout.entries = [] ++ layout.entries := rfl
    exact Layout.get?_upTo_eq_none layout_wellFormed hsplit (List.mem_cons_of_mem _ List.mem_cons_self)

def value : Value := .record [("data", .list [.int 1]), ("size", .int 1)]

end Chunk

/-- Bytes in front of their size are never read, and are written when their size is given. -/
theorem ForwardDepend.pack_forwardDepend_chunk :
    unpack Packet.context 4 (.object Chunk.layout) ⟨⟨#[1, 1], 0⟩, none⟩ = .error (.fault (.undefinedDependency "size")) ∧
      pack Packet.context 4 (.object Chunk.layout) .null ⟨#[], none⟩ = .error (.fault (.undefinedDependency "size")) ∧
      pack Packet.context 4 (.object Chunk.layout) Chunk.value ⟨#[], none⟩ = .ok ((), ⟨#[1, 1], none⟩) := by
  obtain ⟨hunpack, hpack⟩ := pack_forwardDepend Chunk.forwardDepend 2
  refine ⟨hunpack _ _ _ rfl rfl, (hpack _ _ _ _ rfl rfl rfl).1 rfl, ?_⟩
  exact ((hpack _ _ _ _ rfl rfl rfl).2 (.int 1) (.bytes (.fixed 1)) _ rfl rfl rfl).trans rfl

/-- A value is written that cannot be read back. -/
theorem pack_unreadable :
    Registry.standard.pack (.object Chunk.layout) Chunk.value = .ok #[1, 1] ∧
      Registry.standard.unpack (.object Chunk.layout) #[1, 1] = .error (.fault (.undefinedDependency "size")) :=
  ⟨rfl, rfl⟩

end WireLayout
