import WireLayout.Proofs.ForwardDepend
import WireLayout.Proofs.Unplaced

/-!
# Unions with an exit

An exit leaves the body around, and no later field is run. In either direction an object runs all its fields, and so does a union that
is read; a union that is written passes over the fields that the value does not have. Where the value has the field of the exit, or
none of those behind it, the fields behind it write nothing, and the union is written as if it had none of them. Where the value has
one of those but not the exit, the exit is passed over, and they are written (`pack_unionExit`, `pack_passes_exit`). When such a union
is read, the exit and all that is behind it are null in any case.
-/

namespace WireLayout

open Codec

namespace Body

variable {run : Candidate → Value → Packing Unit} {v : Value}

theorem overlayFields_exited {scope : Scope} (hexit : scope.isExited = true) (fields : Keyed Candidate) (region : Bytes) :
    overlayFields run v fields scope region = pure region := by
  cases fields with
  | nil => rfl
  | cons field rest => rw [overlayFields, if_pos hexit]

/-- Fields that the value does not have write nothing. -/
theorem overlayFields_absent {fields : Keyed Candidate} (absent : ∀ key ∈ Keyed.keys fields, v.get? key = none) (scope : Scope)
    (region : Bytes) : overlayFields run v fields scope region = pure region := by
  induction fields with
  | nil => rfl
  | cons field rest ih =>
    rw [overlayFields, absent field.1 List.mem_cons_self]
    split
    · rfl
    · exact ih fun key hkey => absent key (List.mem_cons_of_mem _ hkey)

/-- What the first fields write is followed by what the others do, wherever these are. -/
theorem overlayFields_append_congr {rest rest' : Keyed Candidate}
    (same : ∀ scope region, overlayFields run v rest scope region = overlayFields run v rest' scope region) (first : Keyed Candidate)
    (scope : Scope) (region : Bytes) :
    overlayFields run v (first ++ rest) scope region = overlayFields run v (first ++ rest') scope region := by
  induction first generalizing scope region with
  | nil => exact same scope region
  | cons field first ih =>
    rw [List.cons_append, List.cons_append, overlayFields, overlayFields]
    split
    · rfl
    · split
      · exact ih scope region
      · simp only [ih]

/-- Fields that do not look at the layout write the same in a body with another layout. -/
theorem overlayFields_relaid {fields : Keyed Candidate}
    (hrun : ∀ key c content, (key, c) ∈ fields → Walk.Leaves (run c content) ∧ Walk.IgnoresLayout (run c content)) (layout : Layout)
    {scope : Scope} (unplaced : scope.offsets = []) (region : Bytes) :
    overlayFields run v fields (scope.relaid layout) region = overlayFields run v fields scope region := by
  induction fields generalizing scope region with
  | nil => rfl
  | cons field rest ih =>
    obtain ⟨key, c⟩ := field
    have hrest := fun key c content hmem => hrun key c content (List.mem_cons_of_mem _ hmem)
    have same : (scope.relaid layout).isExited = scope.isExited := rfl
    rw [overlayFields, overlayFields, same]
    split
    · rfl
    · split
      · exact ih hrest unplaced region
      · next content _ =>
        obtain ⟨leaves, ignores⟩ := hrun key c content List.mem_cons_self
        funext s
        rw [Walk.bind_apply, Walk.bind_apply]
        simp only [Walk.within, Packing.collect, Walk.bind_apply, Walk.aside, ignores #[] scope layout unplaced]
        cases written : run c content ⟨#[], some scope⟩ with
        | error stop => rfl
        | ok result =>
          obtain ⟨⟨⟩, out, inner⟩ := result
          obtain ⟨fires, rfl⟩ := leaves _ _ _ written
          have unplaced' : (scope.leave fires).offsets = [] := unplaced
          exact congrFun (ih hrest unplaced' _) s

end Body

theorem Layout.entries_upTo {layout : Layout} {before rest : Keyed Candidate} (split : layout.entries = before ++ rest) :
    (layout.upTo before.length).entries = before := by
  have items : ∀ (n start : Nat) (items : List Candidate),
      positionEntries start (items.take n) = (positionEntries start items).take n := by
    intro n start items
    induction items generalizing n start with
    | nil => cases n <;> rfl
    | cons c rest ih =>
      cases n with
      | zero => rfl
      | succ n => exact congrArg (_ :: ·) (ih n (start + 1))
  cases layout with
  | named fields =>
    have hfields : fields = before ++ rest := split
    show fields.take before.length = before
    rw [hfields, List.take_left]
  | positional cs =>
    have hitems : positionEntries 0 cs = before ++ rest := split
    show positionEntries 0 (cs.take before.length) = before
    rw [items, hitems, List.take_left]

theorem Layout.checkShape_upTo (layout : Layout) (n : Nat) (v : Value) :
    Body.checkShape (layout.upTo n) v = Body.checkShape layout v := by
  cases layout <;> cases v <;> rfl

/-- A union with an exit among its fields. -/
structure UnionExit (Γ : Context) where
  layout : Layout
  size : Nat
  before : Keyed Candidate
  key : String
  field : Candidate
  after : Keyed Candidate
  wellFormed : layout.WellFormed
  split : layout.entries = before ++ (key, field) :: after
  exits : Γ.registry.resolve field = .ok .exit

namespace UnionExit

variable {Γ : Context} (E : UnionExit Γ)

def schema : Schema := .union E.layout E.size

/-- The union of the fields in front of the exit. -/
def front : Schema := .union (E.layout.upTo E.before.length) E.size

/-- Whether the exit is reached, or there is nothing behind it to reach. -/
def Ends (v : Value) : Prop := v.get? E.key ≠ none ∨ ∀ key ∈ Keyed.keys E.after, v.get? key = none

/-- Writes some of the fields, in the body of the union. -/
def overlaid (depth : Nat) (fields : Keyed Candidate) (v : Value) : Packing Unit := do
  Walk.ofExcept (Body.checkShape E.layout v)
  let region ← Body.overlayFields (Packing.candidate Γ (pack Γ depth)) v fields (.writing E.layout v) (Bytes.zeros E.size)
  Packing.emit region

theorem pack_schema (depth : Nat) (v : Value) : pack Γ (depth + 1) E.schema v = E.overlaid depth E.layout.entries v := rfl

theorem overlaid_congr {depth : Nat} {fields fields' : Keyed Candidate} {v : Value}
    (same : ∀ scope region, Body.overlayFields (Packing.candidate Γ (pack Γ depth)) v fields scope region =
      Body.overlayFields (Packing.candidate Γ (pack Γ depth)) v fields' scope region) :
    E.overlaid depth fields v = E.overlaid depth fields' v := by
  rw [overlaid, overlaid, same]

/-- The exit itself writes nothing, and no field behind it is run. -/
theorem overlayFields_exit (depth : Nat) {v content : Value} (present : v.get? E.key = some content) (scope : Scope) (region : Bytes) :
    Body.overlayFields (Packing.candidate Γ (pack Γ (depth + 1))) v ((E.key, E.field) :: E.after) scope region = pure region := by
  rw [Body.overlayFields, present]
  split
  · rfl
  · funext s
    have field : Packing.candidate Γ (pack Γ (depth + 1)) E.field content ⟨#[], some scope⟩ =
        .ok ((), ⟨#[], some scope.exit⟩) := by
      rw [Packing.candidate_eq E.exits]
      rfl
    have nothing : Body.overlay region #[] = region := rfl
    show (Walk.within scope (Packing.collect (Packing.candidate Γ (pack Γ (depth + 1)) E.field content)) >>= _) s = _
    rw [Walk.bind_apply]
    simp only [Walk.within, Packing.collect, Walk.bind_apply, Walk.aside, field, Walk.pure_apply, Option.getD_some, nothing]
    rw [Body.overlayFields_exited rfl]
    rfl

theorem overlaid_before (depth : Nat) {v : Value} (ends : E.Ends v) :
    pack Γ (depth + 2) E.schema v = E.overlaid (depth + 1) E.before v := by
  have alone : E.overlaid (depth + 1) E.before v = E.overlaid (depth + 1) (E.before ++ []) v := by rw [List.append_nil]
  rw [pack_schema, E.split, alone]
  refine E.overlaid_congr (Body.overlayFields_append_congr (fun scope region => ?_) E.before)
  cases present : v.get? E.key with
  | some content => exact E.overlayFields_exit depth present scope region
  | none =>
    refine Body.overlayFields_absent (fun key hkey => ?_) scope region
    rcases List.mem_cons.mp hkey with rfl | hkey
    · exact present
    · exact (ends.resolve_left fun reached => reached present) key hkey

/-- Without its field in the value the exit is passed over. -/
theorem overlaid_passed (depth : Nat) {v : Value} (absent : v.get? E.key = none) :
    pack Γ (depth + 1) E.schema v = E.overlaid depth (E.before ++ E.after) v := by
  rw [pack_schema, E.split]
  refine E.overlaid_congr (Body.overlayFields_append_congr (fun scope region => ?_) E.before)
  rw [Body.overlayFields, absent]
  split
  · next hexit => rw [Body.overlayFields_exited hexit]
  · rfl

/-- The fields in front of the exit write the same in a union of their own, where no user-defined kind can tell. -/
theorem pack_front (depth : Nat) (v : Value)
    (plain : Site.Throughout Γ.registry .any (fun site => site.schema.isCustom = false) (.top E.front)) :
    pack Γ (depth + 1) E.front v = E.overlaid depth E.before v := by
  have entries : (E.layout.upTo E.before.length).entries = E.before := Layout.entries_upTo E.split
  show Body.packUnion _ (E.layout.upTo E.before.length) E.size v = _
  rw [Body.packUnion, Layout.checkShape_upTo, overlaid, entries]
  have ignores : ∀ key c content, (key, c) ∈ E.before → Walk.Leaves (Packing.candidate Γ (pack Γ depth) c content) ∧
      Walk.IgnoresLayout (Packing.candidate Γ (pack Γ depth) c content) := by
    intro key c content hmem
    obtain ⟨first, rest, split⟩ := List.append_of_mem hmem
    refine Packing.compositional_ignoresLayout.candidate fun schema hschema => ?_
    have field := plain.of_runs (.view (entries.trans split) hschema)
    exact ⟨pack_leaves depth schema content, pack_ignoresLayout depth field content⟩
  have unplaced : (Scope.writing E.layout v).offsets = [] := rfl
  have relaid := Body.overlayFields_relaid (v := v) ignores (E.layout.upTo E.before.length) unplaced (Bytes.zeros E.size)
  exact congrArg (fun region => Walk.ofExcept (Body.checkShape E.layout v) >>= fun _ => region >>= Packing.emit) relaid

/-! ## Reading -/

/-- Reads some of the fields from the start of the region, in the body of the union. -/
def windowed (depth : Nat) (fields : Keyed Candidate) : Unpacking Scope := do
  let window ← Unpacking.take E.size
  let readField (field : Candidate) : Unpacking Value := do
    let (v, _) ← Walk.aside (Cursor.ofBytes window) (Unpacking.candidate Γ (unpack Γ depth) field)
    return v
  Body.unpackFields readField fields (.reading E.layout)

/-- Behind the fields in front, the exit and all that is behind it are null. -/
theorem unpackFields_exit {readField : Candidate → Unpacking Value}
    (leaves : ∀ medium scope, readField E.field ⟨medium, some scope⟩ = .ok (.null, ⟨medium, some scope.exit⟩))
    {contents : List Value} (hlength : contents.length = E.before.length) {scope : Scope} (hvalue : scope.value = E.layout.valueOf contents)
    (s : WalkState Cursor) :
    ∃ scope', Body.unpackFields readField ((E.key, E.field) :: E.after) scope s = .ok (scope', s) ∧
      scope'.value = E.layout.valueOf (contents ++ List.replicate (E.after.length + 1) .null) := by
  have hpush : ∀ behind : Scope, behind.value = scope.value →
      (behind.push E.key .null).value = E.layout.valueOf (contents ++ [.null]) :=
    fun behind same => Layout.push_value E.wellFormed E.split hlength (same.trans hvalue) .null
  have hnext := Keyed.length_next hlength Value.null (E.key, E.field)
  have nulls : contents ++ List.replicate (E.after.length + 1) .null = contents ++ [.null] ++ E.after.map fun _ => Value.null := by
    rw [List.map_const', List.replicate_succ, List.append_assoc]
    rfl
  -- Both where the body was left before and where the exit leaves it, what remains is behind an exit.
  have behind : ∀ t : Scope, t.value = scope.value → t.isExited = true → ∃ scope',
      Body.unpackFields readField E.after (t.push E.key .null) s = .ok (scope', s) ∧
        scope'.value = E.layout.valueOf (contents ++ List.replicate (E.after.length + 1) .null) := by
    intro t same left
    rw [nulls]
    exact Body.unpackFields_exited E.wellFormed (Keyed.split_next E.split) hnext (hpush t same) (by rw [Scope.isExited_push, left]) s
  cases hexit : scope.isExited with
  | true =>
    rw [Body.unpackFields, if_pos hexit]
    exact behind scope rfl hexit
  | false =>
    obtain ⟨scope', hread, hvalue'⟩ := behind scope.exit rfl rfl
    exact ⟨scope', (Body.unpackFields_cons_eq_ok hexit).mpr ⟨.null, _, leaves s.medium scope, hread⟩, hvalue'⟩

/-- A union is read when the fields in front of the exit are; the exit and all that is behind it are null. -/
theorem unpack_schema (depth : Nat) (s : WalkState Cursor) (r : Value × WalkState Cursor) :
    unpack Γ (depth + 2) E.schema s = .ok r ↔
      ∃ scope contents, E.windowed (depth + 1) E.before s = .ok (scope, r.2) ∧ contents.length = E.before.length ∧
        scope.value = E.layout.valueOf contents ∧
        r.1 = E.layout.valueOf (contents ++ List.replicate (E.after.length + 1) .null) := by
  obtain ⟨v, s'⟩ := r
  show Body.unpackUnion (Unpacking.candidate Γ (unpack Γ (depth + 1))) E.layout E.size s = _ ↔ _
  rw [Body.unpackUnion, windowed, Walk.bind_apply, Walk.bind_apply]
  cases Unpacking.take E.size s with
  | error stop => simp
  | ok window =>
    obtain ⟨window, s₁⟩ := window
    dsimp only
    generalize hread : (fun field => Walk.aside (Cursor.ofBytes window) (Unpacking.candidate Γ (unpack Γ (depth + 1)) field) >>=
      fun p => (pure p.1 : Unpacking Value)) = readField
    have leaves : ∀ medium scope, readField E.field ⟨medium, some scope⟩ = .ok (.null, ⟨medium, some scope.exit⟩) := by
      intro medium scope
      rw [← hread]
      dsimp only
      rw [Walk.bind_apply, Unpacking.candidate_eq E.exits]
      rfl
    have hleaves : ∀ c, Walk.Leaves (readField c) := by
      intro c
      rw [← hread]
      exact (Walk.Moves.aside (Walk.Leaves.resolve fun schema => unpack_leaves (depth + 1) schema) _).bind fun _ => .pure _
    have hsplit : E.layout.entries = [] ++ (E.before ++ (E.key, E.field) :: E.after) := E.split
    rw [E.split, Body.unpackFields_append, bind_assoc, Walk.bind_eq_ok]
    constructor
    · rintro ⟨scope, s₂, hfirst, hrest⟩
      obtain ⟨contents, hlength, hvalue⟩ :=
        Body.unpackFields_value hleaves E.wellFormed hsplit rfl E.layout.valueOf_nil.symm hfirst
      obtain ⟨scope', hbehind, hvalue'⟩ := E.unpackFields_exit leaves hlength hvalue s₂
      rw [Walk.bind_apply, hbehind] at hrest
      cases hrest
      exact ⟨scope, contents, hfirst, hlength, hvalue, hvalue'⟩
    · rintro ⟨scope, contents, hfirst, hlength, hvalue, rfl⟩
      obtain ⟨scope', hbehind, hvalue'⟩ := E.unpackFields_exit leaves hlength hvalue s'
      refine ⟨scope, s', hfirst, ?_⟩
      rw [Walk.bind_apply, hbehind, ← hvalue']
      rfl

/-- A union with an exit, in either direction. Where the value has the field of the exit, or none behind it, the union is written as
the fields in front of the exit are, in the same body; so it is written as the union of these fields is, unless there is a user-defined
kind among them. Where the value does not have the field of the exit, the union is written as all its other fields are. It is read
exactly when the fields in front of the exit are, and then the exit and all that is behind it are null. -/
theorem pack_unionExit (depth : Nat) :
    (∀ v, E.Ends v → pack Γ (depth + 2) E.schema v = E.overlaid (depth + 1) E.before v) ∧
      (Site.Throughout Γ.registry .any (fun site => site.schema.isCustom = false) (.top E.front) →
        ∀ v, E.Ends v → pack Γ (depth + 2) E.schema v = pack Γ (depth + 2) E.front v) ∧
      (∀ v, v.get? E.key = none → pack Γ (depth + 2) E.schema v = E.overlaid (depth + 1) (E.before ++ E.after) v) ∧
      ∀ s r, unpack Γ (depth + 2) E.schema s = .ok r ↔
        ∃ scope contents, E.windowed (depth + 1) E.before s = .ok (scope, r.2) ∧ contents.length = E.before.length ∧
          scope.value = E.layout.valueOf contents ∧
          r.1 = E.layout.valueOf (contents ++ List.replicate (E.after.length + 1) .null) := by
  refine ⟨fun v ends => E.overlaid_before depth ends, fun plain v ends => ?_, fun v absent => ?_, ?_⟩
  · rw [E.overlaid_before depth ends, E.pack_front (depth + 1) v plain]
  · exact E.overlaid_passed (depth + 1) absent
  · exact fun s r => E.unpack_schema depth s r

end UnionExit

namespace Overlap

/-- A byte, an exit, and another byte at the same place. -/
def layout : Layout := .named [("a", .number .uint8), ("x", .exit), ("b", .number .uint8)]

def unionExit : UnionExit Packet.context where
  layout := layout
  size := 1
  before := [("a", .number .uint8)]
  key := "x"
  field := .exit
  after := [("b", .number .uint8)]
  wellFormed := by
    unfold layout Layout.WellFormed
    decide
  split := rfl
  exits := rfl

/-- The exit is among the fields. -/
def left : Value := .record [("a", .int 1), ("x", .null), ("b", .int 2)]

/-- The exit is not among the fields. -/
def passed : Value := .record [("a", .int 1), ("b", .int 2)]

theorem front_plain : Site.Throughout Registry.standard .any (fun site => site.schema.isCustom = false) (.top unionExit.front) := by
  refine Site.throughout_union rfl ?_
  intro i key c schema hi hc
  match i with
  | 0 =>
    cases hi
    cases hc
    exact Site.throughout_number rfl
  | i + 1 => cases hi

end Overlap

/-- With the exit among its fields the value is written up to the exit; without it, past the exit. -/
theorem UnionExit.pack_unionExit_overlap :
    pack Packet.context 2 Overlap.unionExit.schema Overlap.left ⟨#[], none⟩ = .ok ((), ⟨#[1], none⟩) ∧
      pack Packet.context 2 Overlap.unionExit.schema Overlap.left = pack Packet.context 2 Overlap.unionExit.front Overlap.left ∧
      pack Packet.context 2 Overlap.unionExit.schema Overlap.passed ⟨#[], none⟩ = .ok ((), ⟨#[2], none⟩) := by
  obtain ⟨before, front, past, -⟩ := pack_unionExit Overlap.unionExit 0
  have ends : Overlap.unionExit.Ends Overlap.left := Or.inl nofun
  refine ⟨?_, front Overlap.front_plain Overlap.left ends, ?_⟩
  · rw [before Overlap.left ends]
    rfl
  · rw [past Overlap.passed rfl]
    rfl

/-- A value without the exit is written past it, but never read past it. -/
theorem pack_passes_exit :
    Registry.standard.pack (.union Overlap.layout 1) Overlap.passed = .ok #[2] ∧
      Registry.standard.pack (.union (.named [("a", .number .uint8)]) 1) Overlap.passed = .ok #[1] ∧
      Registry.standard.unpack (.union Overlap.layout 1) #[2] =
        .ok (.record [("a", .int 2), ("x", .null), ("b", .null)]) :=
  ⟨rfl, rfl, rfl⟩

end WireLayout
