import WireLayout.Proofs.Filling
import WireLayout.Proofs.Tandem

/-!
# The same lengths in either byte order

Two runs of a schema that differ in the byte order alone keep in step (`InStep`): both stop for the same reason, or both go on, with
outputs of the same length and the same body around (`pack_inStep`). Numbers are the only place where the order comes in. They take as
many bytes in either order, and whether a value has a word at all is settled before its bytes are put in order. What is decided on the
way looks at lengths and values only, never at bytes that were written. A transform of a region could look at them, and so could a
user-defined kind, so neither must run inside.
-/

namespace WireLayout

/-- The same run in another byte order. -/
def Context.ordered (Γ : Context) (order : ByteOrder) : Context := { Γ with options := Γ.options.setByteOrder order }

/-- Whether what a schema writes is settled by this library alone: no transform and no user-defined kind. -/
def Schema.isPlain : Schema → Bool
  | parse _ _ _ _ | custom _ => false
  | _ => true

namespace Number

variable (kind : Number) (order order' : ByteOrder)

/-- A number takes as many bytes as it is wide, unless the value has no word. -/
theorem size_of_pack (v : Value) (out : Bytes) : (kind.pack order v out).map Array.size = (kind.wordOf v).map fun _ => out.size + kind.size := by
  rw [pack_eq, encode]
  cases kind.wordOf v with
  | error fault => rfl
  | ok word =>
    refine congrArg Except.ok ?_
    simp [Array.size_append]

theorem size_of_packCount (n : Nat) {out out' : Bytes} (hsize : out'.size = out.size) :
    (kind.packCount order' n out').map Array.size = (kind.packCount order n out).map Array.size := by
  rw [packCount, packCount]
  split
  · rfl
  · rw [size_of_pack, size_of_pack, hsize]

end Number

/-! ## Steps that keep in step -/

/-- What two runs of a step give: related values, outputs of the same length, and the same scope, which is still of the body around. -/
structure EvenAfter {α : Type} (body : Option Layout) (V : α → α → Prop) (a b : α × WalkState Bytes) : Prop where
  value : V a.1 b.1
  size : b.2.medium.size = a.2.medium.size
  scope : b.2.scope = a.2.scope
  body : a.2.scope.map (·.layout) = body

/-- On outputs of the same length, in one scope of the body, two steps stop for the same reason or go on alike. -/
def InStep {α : Type} (body : Option Layout) (V : α → α → Prop) (step step' : Packing α) : Prop :=
  ∀ out out' scope, out'.size = out.size → scope.map (·.layout) = body →
    Both (EvenAfter body V) (step ⟨out, scope⟩) (step' ⟨out', scope⟩)

/-- Runs of bytes of the same length. -/
def SameSize (bytes bytes' : Bytes) : Prop := bytes'.size = bytes.size

namespace InStep

open Packing

variable {α β : Type} {body : Option Layout} {V : α → α → Prop} {W : β → β → Prop} {Γ : Context} {order : ByteOrder}
  {run run' : Schema → Value → Packing Unit}

theorem bind {step step' : Packing α} {next next' : α → Packing β} (h : InStep body V step step')
    (hnext : ∀ a b, V a b → InStep body W (next a) (next' b)) : InStep body W (step >>= next) (step' >>= next') := by
  intro out out' scope hsize hbody
  refine Walk.both_bind (h out out' scope hsize hbody) ?_
  rintro ⟨a, out₁, scope₁⟩ ⟨b, out₂, scope₂⟩ - after
  obtain rfl : scope₂ = scope₁ := after.scope
  exact hnext a b after.value out₁ out₂ scope₂ after.size after.body

/-- A sequence of which the second step goes on from the same value. -/
theorem seq {step step' : Packing α} {next next' : α → Packing β} (h : InStep body Eq step step')
    (hnext : ∀ a, InStep body W (next a) (next' a)) : InStep body W (step >>= next) (step' >>= next') := by
  refine h.bind ?_
  rintro a b rfl
  exact hnext a

theorem pure {a b : α} (h : V a b) : InStep body V (Pure.pure a) (Pure.pure b) :=
  fun _ _ _ hsize hbody => .ok ⟨h, hsize, rfl, hbody⟩

theorem stop (stop : Stop) : InStep body V (fun _ => .error stop) (fun _ => .error stop) := fun _ _ _ _ _ => .stop stop

theorem ofExcept (result : Except Fault α) : InStep body Eq (Walk.ofExcept result) (Walk.ofExcept result) := by
  cases result with
  | ok a => exact InStep.pure rfl
  | error fault => exact InStep.stop _

theorem exitScope (kind : String) : InStep body Eq (Walk.exitScope kind) (Walk.exitScope kind) := by
  intro out out' scope hsize hbody
  cases scope with
  | none => exact .stop _
  | some scope => exact .ok ⟨rfl, hsize, rfl, hbody⟩

theorem sibling (kind field : String) : InStep body Eq (Walk.sibling kind field) (Walk.sibling kind field) := by
  intro out out' scope hsize hbody
  cases scope with
  | none => exact .stop _
  | some scope =>
    simp only [Walk.sibling_eq_onScope, Walk.onScope]
    cases scope.field? field with
    | none => exact .stop _
    | some v => exact .ok ⟨rfl, hsize, rfl, hbody⟩

theorem position : InStep body Eq position position := fun _ _ _ hsize hbody => .ok ⟨hsize.symm, hsize, rfl, hbody⟩

/-- Two changes of the output that fail alike and lead to the same length. -/
theorem onOutput {f f' : Bytes → Except Fault Bytes}
    (h : ∀ out out' : Bytes, out'.size = out.size → (f' out').map Array.size = (f out).map Array.size) :
    InStep body Eq (onOutput f) (onOutput f') := by
  intro out out' scope hsize hbody
  have even := h out out' hsize
  simp only [Packing.onOutput]
  cases first : f out with
  | error fault =>
    rw [first] at even
    cases second : f' out' with
    | error fault' =>
      rw [second] at even
      cases even
      exact .stop _
    | ok bytes' =>
      rw [second] at even
      cases even
  | ok bytes =>
    rw [first] at even
    cases second : f' out' with
    | error fault' =>
      rw [second] at even
      cases even
    | ok bytes' =>
      rw [second] at even
      exact .ok ⟨rfl, Except.ok.inj even, rfl, hbody⟩

theorem emit {bytes bytes' : Bytes} (h : SameSize bytes bytes') : InStep body Eq (emit bytes) (emit bytes') := by
  intro out out' scope hsize hbody
  refine .ok ⟨rfl, ?_, rfl, hbody⟩
  show (out' ++ bytes').size = (out ++ bytes).size
  rw [Array.size_append, Array.size_append, hsize, h]

/-- Counts of the same length are written over the same place. -/
theorem patch (offset : Nat) {content content' : Bytes} (h : SameSize content content') :
    InStep body Eq (Packing.onOutput fun out => .ok (out.patch offset content))
      (Packing.onOutput fun out => .ok (out.patch offset content')) := by
  refine onOutput ?_
  intro out out' hsize
  have hcontent : content'.size = content.size := h
  simp only [Except.map, Bytes.size_patch, hsize, hcontent]

/-- Outputs of their own are of the same length too. -/
theorem collect {step step' : Packing Unit} (h : InStep body Eq step step') : InStep body SameSize (collect step) (collect step') := by
  intro out out' scope hsize hbody
  have apart := h #[] #[] scope rfl hbody
  simp only [Packing.collect, Walk.bind_apply, Walk.aside]
  generalize step ⟨#[], scope⟩ = first at apart
  generalize step' ⟨#[], scope⟩ = second at apart
  cases apart with
  | stop reason => exact .stop reason
  | ok after => exact .ok ⟨after.size, hsize, after.scope, after.body⟩

/-- Steps in one scope of a body inside; the scope around is put back. -/
theorem within (scope : Scope) {layout : Layout} (hscope : scope.layout = layout) {step step' : Packing α}
    (h : InStep (some layout) V step step') :
    InStep body (fun a b => V a.1 b.1 ∧ b.2 = a.2 ∧ a.2.layout = layout) (Walk.within scope step) (Walk.within scope step') := by
  intro out out' around hsize hbody
  have inside := h out out' (some scope) hsize (congrArg some hscope)
  simp only [Walk.within]
  generalize step ⟨out, some scope⟩ = first at inside
  generalize step' ⟨out', some scope⟩ = second at inside
  cases inside with
  | stop reason => exact .stop reason
  | @ok a b after =>
    have kept : (a.2.scope.getD scope).layout = layout := by
      have hlayout := after.body
      cases hinner : a.2.scope with
      | none => exact hscope
      | some inner =>
        rw [hinner] at hlayout
        exact Option.some.inj hlayout
    exact .ok ⟨⟨after.value, congrArg (·.getD scope) after.scope, kept⟩, after.size, rfl, hbody⟩

/-! ## What schemas are made of -/

theorem resolve {c : Candidate} {next next' : Schema → Packing β}
    (hnext : ∀ schema, Γ.registry.resolve c = .ok schema → InStep body W (next schema) (next' schema)) :
    InStep body W (Walk.resolve Γ c >>= next) (Walk.resolve (Γ.ordered order) c >>= next') := by
  have same : (Walk.resolve (Γ.ordered order) c : Packing Schema) = Walk.resolve Γ c := rfl
  rw [same]
  cases hc : Γ.registry.resolve c with
  | ok schema =>
    rw [Walk.resolve_bind_ok hc, Walk.resolve_bind_ok hc]
    exact hnext schema hc
  | error reason =>
    rw [Walk.resolve_bind_error hc, Walk.resolve_bind_error hc]
    exact InStep.stop reason

theorem resolveNumber (c : Candidate) (fault : Schema → Fault) :
    InStep body Eq (Walk.resolveNumber Γ c fault) (Walk.resolveNumber (Γ.ordered order) c fault) := by
  refine resolve ?_
  intro schema _
  split
  · exact InStep.pure rfl
  · exact InStep.stop _

theorem candidate {c : Candidate} {v : Value}
    (hrun : ∀ schema, Γ.registry.resolve c = .ok schema → InStep body Eq (run schema v) (run' schema v)) :
    InStep body Eq (candidate Γ run c v) (candidate (Γ.ordered order) run' c v) := resolve hrun

theorem number (kind : Number) (v : Value) : InStep body Eq (number Γ kind v) (number (Γ.ordered order) kind v) := by
  refine onOutput ?_
  intro out out' hsize
  rw [Number.size_of_pack, Number.size_of_pack, hsize]

theorem packCount (kind : Number) (n : Nat) : InStep body Eq (Packing.onOutput fun out => kind.packCount Γ.options.byteOrder n out)
    (Packing.onOutput fun out => kind.packCount (Γ.ordered order).options.byteOrder n out) :=
  onOutput fun _ _ hsize => kind.size_of_packCount _ _ n hsize

theorem count (count : Count) (n : Nat) : InStep body Eq (count.pack Γ n) (count.pack (Γ.ordered order) n) := by
  cases count with
  | prefixed number => exact (resolveNumber number _).seq fun kind => packCount kind n
  | fixed _ | auto => exact InStep.pure rfl

theorem region (size : Count) (bytes : Bytes) :
    InStep body Eq (Region.pack Γ size bytes) (Region.pack (Γ.ordered order) size bytes) := by
  cases size with
  | fixed n => exact emit rfl
  | prefixed number => exact (count (.prefixed number) bytes.size).seq fun _ => emit rfl
  | auto => exact (InStep.pure rfl).seq fun _ => emit rfl

theorem textOf (v : Value) : InStep body Eq (Text.ofValue v) (Text.ofValue v) := by
  unfold Text.ofValue
  split
  · exact InStep.pure rfl
  · exact InStep.pure rfl
  · exact InStep.stop _

theorem elementsOf (v : Value) : InStep body Eq (Elements.ofValue v) (Elements.ofValue v) := by
  unfold Elements.ofValue
  split
  · exact InStep.pure rfl
  · exact InStep.pure rfl
  · exact InStep.stop _

theorem packEach {step step' : Value → Packing Unit} (h : ∀ v, InStep body Eq (step v) (step' v)) (count : Nat) (items : List Value) :
    InStep body Eq (Elements.packEach step count items) (Elements.packEach step' count items) := by
  induction count generalizing items with
  | zero => exact InStep.pure rfl
  | succ count ih =>
    rw [Elements.packEach_succ, Elements.packEach_succ]
    exact (h _).seq fun _ => ih items.tail

/-- A block of numbers in one run keeps in step with the numbers one by one in the other. -/
theorem elements {item : Candidate}
    (hrun : ∀ schema v, Γ.registry.resolve item = .ok schema → InStep body Eq (run schema v) (run' schema v)) (items : List Value)
    (count : Nat) : InStep body Eq (Elements.pack Γ run item items count) (Elements.pack (Γ.ordered order) run' item items count) := by
  refine resolve ?_
  intro schema hitem
  split
  · rw [Elements.packNumbers_eq_packEach, Elements.packNumbers_eq_packEach]
    exact packEach (number _) count items
  · exact packEach (fun v => hrun _ v hitem) count items

theorem countBytes {counter : Candidate} {n : Nat}
    (hrun : ∀ schema, Γ.registry.resolve counter = .ok schema → InStep body Eq (run schema (.ofCount n)) (run' schema (.ofCount n))) :
    InStep body SameSize (Sibling.countBytes Γ run counter n) (Sibling.countBytes (Γ.ordered order) run' counter n) := by
  refine resolve ?_
  intro schema hcounter
  split
  · exact collect (packCount _ n)
  · exact collect (hrun _ hcounter)

/-- The field that holds the count is one of the body around, and stands at the same place in both runs. -/
theorem link {field : String} {item : Candidate}
    (hcount : ∀ layout counter schema n, body = some layout → layout.get? field = some counter →
      Γ.registry.resolve counter = .ok schema → InStep body Eq (run schema (.ofCount n)) (run' schema (.ofCount n)))
    (hrun : ∀ schema v, Γ.registry.resolve item = .ok schema → InStep body Eq (run schema v) (run' schema v)) (v : Value) :
    InStep body Eq (Sibling.packLink Γ run field item v) (Sibling.packLink (Γ.ordered order) run' field item v) := by
  refine (elementsOf v).seq fun items out out' scope hsize hbody => ?_
  rw [Walk.bind_apply, Walk.bind_apply]
  cases scope with
  | none => exact .stop _
  | some scope =>
    simp only [Walk.requireScope]
    cases hcounter : scope.fieldSchema? field with
    | none => exact .stop _
    | some counter =>
      cases scope.offset? field with
      | none => exact .stop _
      | some offset =>
        have hbytes : InStep body SameSize (Sibling.countBytes Γ run counter items.length)
            (Sibling.countBytes (Γ.ordered order) run' counter items.length) :=
          countBytes fun schema hschema => hcount scope.layout counter schema _ hbody.symm hcounter hschema
        exact hbytes.bind (fun _ _ h => (patch offset h).seq fun _ => elements hrun items _) out out' (some scope) hsize hbody

/-! ## Bodies -/

theorem packFields {write write' : Candidate → Value → Packing Unit} {layout : Layout} {v : Value} {fields : Keyed Candidate}
    (hwrite : ∀ key c w, (key, c) ∈ fields → InStep (some layout) Eq (write c w) (write' c w)) {scope : Scope}
    (hscope : scope.layout = layout) :
    InStep body Eq (Body.packFields write v fields scope) (Body.packFields write' v fields scope) := by
  induction fields generalizing scope with
  | nil => exact InStep.pure rfl
  | cons field rest ih =>
    obtain ⟨key, c⟩ := field
    have hwriteRest := fun key c w hmem => hwrite key c w (List.mem_cons_of_mem _ hmem)
    rw [Body.packFields, Body.packFields]
    split
    · exact InStep.pure rfl
    · refine position.seq fun start => ?_
      refine (within (scope.mark key start) hscope (hwrite key c _ List.mem_cons_self)).bind ?_
      rintro ⟨_, inner⟩ ⟨_, inner'⟩ ⟨_, same, hinner⟩
      obtain rfl : inner' = inner := same
      exact ih hwriteRest hinner

theorem object {write write' : Candidate → Value → Packing Unit} (layout : Layout) (v : Value)
    (hwrite : ∀ key c w, (key, c) ∈ layout.entries → InStep (some layout) Eq (write c w) (write' c w)) :
    InStep body Eq (Body.packObject write layout v) (Body.packObject write' layout v) :=
  (ofExcept _).seq fun _ => packFields hwrite rfl

/-- The fields of a union are laid over regions of the same length, whatever is in them. -/
theorem overlayFields {write write' : Candidate → Value → Packing Unit} {layout : Layout} {v : Value} {fields : Keyed Candidate}
    (hwrite : ∀ key c w, (key, c) ∈ fields → InStep (some layout) Eq (write c w) (write' c w)) {scope : Scope}
    (hscope : scope.layout = layout) {region region' : Bytes} (hregion : SameSize region region') :
    InStep body SameSize (Body.overlayFields write v fields scope region) (Body.overlayFields write' v fields scope region') := by
  induction fields generalizing scope region region' with
  | nil => exact InStep.pure hregion
  | cons field rest ih =>
    obtain ⟨key, c⟩ := field
    have hwriteRest := fun key c w hmem => hwrite key c w (List.mem_cons_of_mem _ hmem)
    rw [Body.overlayFields, Body.overlayFields]
    split
    · exact InStep.pure hregion
    · split
      · exact ih hwriteRest hscope hregion
      · refine (within scope hscope (collect (hwrite key c _ List.mem_cons_self))).bind ?_
        rintro ⟨written, inner⟩ ⟨written', inner'⟩ ⟨_, same, hinner⟩
        obtain rfl : inner' = inner := same
        refine ih hwriteRest hinner ?_
        show (Bytes.overwrite region' 0 written'.toList).size = (Bytes.overwrite region 0 written.toList).size
        rw [Bytes.size_overwrite, Bytes.size_overwrite]
        exact hregion

theorem union {write write' : Candidate → Value → Packing Unit} (layout : Layout) (size : Nat) (v : Value)
    (hwrite : ∀ key c w, (key, c) ∈ layout.entries → InStep (some layout) Eq (write c w) (write' c w)) :
    InStep body Eq (Body.packUnion write layout size v) (Body.packUnion write' layout size v) :=
  (ofExcept _).seq fun _ => (overlayFields hwrite rfl rfl).bind fun _ _ h => emit h

end InStep

/-! ## Every schema -/

namespace Codec

open Packing

variable {Γ : Context}

/-- Two runs of a schema that differ in the byte order keep in step, in every body. -/
theorem pack_inStep (order : ByteOrder) (depth : Nat) {site : Site}
    (plain : Site.Throughout Γ.registry .any (fun site => site.schema.isPlain = true) site) (v : Value) :
    InStep (site.place.map (·.layout)) Eq (pack Γ depth site.schema v) (pack (Γ.ordered order) depth site.schema v) := by
  induction depth generalizing site v with
  | zero => exact InStep.stop _
  | succ depth ih =>
    obtain ⟨schema, place, isParsed⟩ := site
    cases schema with
    | number kind => exact InStep.number kind v
    | array item count =>
      refine (InStep.elementsOf v).seq fun items => (InStep.count count _).seq fun _ => InStep.elements ?_ items _
      intro schema w hitem
      exact ih (plain.of_runs (.item hitem)) w
    | string size => exact (InStep.textOf v).seq fun text => (InStep.ofExcept _).seq fun bytes => InStep.region size bytes
    | cstring size => exact (InStep.textOf v).seq fun text => (InStep.ofExcept _).seq fun bytes => InStep.region size _
    | object layout =>
      refine InStep.object layout v fun key c w hmem => InStep.candidate fun schema hschema => ?_
      obtain ⟨before, after, split⟩ := List.append_of_mem hmem
      exact ih (plain.of_runs (.field split hschema)) w
    | union layout size =>
      refine InStep.union layout size v fun key c w hmem => InStep.candidate fun schema hschema => ?_
      obtain ⟨before, after, split⟩ := List.append_of_mem hmem
      exact ih (plain.of_runs (.view split hschema)) w
    | enums names base =>
      exact (InStep.resolveNumber base _).seq fun kind => (InStep.ofExcept _).seq fun n => InStep.number kind n
    | depend field selector =>
      refine (InStep.sibling "depend" field).seq fun w => ?_
      cases selects : selector.select w with
      | error fault => exact InStep.stop _
      | ok c => exact InStep.candidate fun schema hschema => ih (plain.of_runs (.selected trivial selects hschema)) v
    | link field item =>
      refine InStep.link ?_ (fun schema w hitem => ih (plain.of_runs (.linked hitem)) w) v
      intro layout counter schema n hlayout hcounter hschema
      obtain ⟨place, rfl, rfl⟩ := Option.map_eq_some_iff.mp hlayout
      exact ih (plain.of_runs (.counter hcounter hschema)) _
    | computed operator w => exact InStep.pure rfl
    | exit => exact InStep.exitScope "exit"
    | parse encode decode inner size => exact absurd plain.here (by simp [Schema.isPlain])
    | custom extension => exact absurd plain.here (by simp [Schema.isPlain])

end Codec

end WireLayout
