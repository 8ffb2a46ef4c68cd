import WireLayout.Proofs.Output
import WireLayout.Proofs.Scopeless

/-!
# What writing is made of

Every step that writes is put together from a few: appending bytes that do not depend on the output, leaving the body around, and
whatever looks at nothing around. So a property of steps that these keep (`Packing.Compositional`) holds for all that runs no other
schema, and for runs of elements as soon as it holds for one of them. Only an exit leaves the body around, so a property that it does not
keep holds for all the others (`Packing.Composable`). What looks at the fields of the body around, what writes to an output of its own,
and what writes over earlier bytes is asked for separately by each property.
-/

namespace WireLayout

namespace Packing

/-- A property of writing steps that the ways of putting them together keep, but for leaving the body around. -/
structure Composable (P : (α : Type) → Packing α → Prop) : Prop where
  bind {α β : Type} {step : Packing α} {next : α → Packing β} (hstep : P α step) (hnext : ∀ a, P β (next a)) : P β (step >>= next)
  appends {f : Bytes → Except Fault Bytes} (hf : Written f) : P Unit (onOutput f)
  detached {α : Type} {step : Packing α} (h : Walk.Detached step) : P α step

/-- A property of writing steps that the ways of putting them together keep. -/
structure Compositional (P : (α : Type) → Packing α → Prop) : Prop extends Composable P where
  exitScope (kind : String) : P Unit (Walk.exitScope kind)

namespace Composable

variable {P : (α : Type) → Packing α → Prop} {Γ : Context} {run : Schema → Value → Packing Unit}

theorem pure (h : Composable P) {α : Type} (a : α) : P α (Pure.pure a) := h.detached (.pure a)

theorem stop (h : Composable P) {α : Type} (stop : Stop) : P α (fun _ => .error stop) := h.detached fun _ _ => rfl

theorem ofExcept (h : Composable P) {α : Type} (result : Except Fault α) : P α (Walk.ofExcept result) := by
  cases result with
  | ok a => exact h.pure a
  | error fault => exact h.stop _

/-- What comes behind the resolution of a candidate matters only for the schema that the candidate stands for. -/
theorem resolve (h : Composable P) {α : Type} {c : Candidate} {next : Schema → Packing α}
    (hnext : ∀ schema, Γ.registry.resolve c = .ok schema → P α (next schema)) : P α (Walk.resolve Γ c >>= next) := by
  cases hc : Γ.registry.resolve c with
  | ok schema =>
    rw [Walk.resolve_bind_ok hc]
    exact hnext schema hc
  | error stop =>
    rw [Walk.resolve_bind_error hc]
    exact h.stop stop

theorem candidate (h : Composable P) {c : Candidate} {v : Value}
    (hrun : ∀ schema, Γ.registry.resolve c = .ok schema → P Unit (run schema v)) : P Unit (candidate Γ run c v) :=
  h.resolve hrun

theorem resolveNumber (h : Composable P) (c : Candidate) (fault : Schema → Fault) :
    P Number (Walk.resolveNumber Γ c fault) := by
  refine h.resolve ?_
  intro schema _
  split
  · exact h.pure _
  · exact h.stop _

theorem emit (h : Composable P) (bytes : Bytes) : P Unit (emit bytes) := by
  have hwritten : Written fun out => .ok (out ++ bytes) := fun front out => congrArg Except.ok (Array.append_assoc ..)
  exact h.appends hwritten

theorem number (h : Composable P) (kind : Number) (v : Value) : P Unit (number Γ kind v) := h.appends (kind.written_pack _ v)

theorem count (h : Composable P) (count : Count) (n : Nat) : P Unit (count.pack Γ n) := by
  cases count with
  | prefixed number => exact h.bind (h.resolveNumber number _) fun kind => h.appends (kind.written_packCount _ n)
  | fixed _ | auto => exact h.pure ()

theorem region (h : Composable P) (size : Count) (bytes : Bytes) : P Unit (Region.pack Γ size bytes) := by
  cases size with
  | fixed n => exact h.emit _
  | prefixed number => exact h.bind (h.count (.prefixed number) bytes.size) fun _ => h.emit bytes
  | auto => exact h.bind (h.pure ()) fun _ => h.emit bytes

theorem textOf (h : Composable P) (v : Value) : P String (Text.ofValue v) := by
  unfold Text.ofValue
  split
  · exact h.pure _
  · exact h.pure _
  · exact h.stop _

theorem text (h : Composable P) (size : Count) (v : Value) : P Unit (Text.pack Γ size v) :=
  h.bind (h.textOf v) fun _ => h.bind (h.ofExcept _) fun _ => h.region size _

theorem terminatedText (h : Composable P) (size : Count) (v : Value) : P Unit (Text.packTerminated Γ size v) :=
  h.bind (h.textOf v) fun _ => h.bind (h.ofExcept _) fun _ => h.region size _

theorem enumeration (h : Composable P) (names : List (String × Int64)) (base : Candidate) (v : Value) :
    P Unit (Enumeration.pack Γ names base v) :=
  h.bind (h.resolveNumber base _) fun kind => h.bind (h.ofExcept _) fun n => h.number kind n

theorem elementsOf (h : Composable P) (v : Value) : P (List Value) (Elements.ofValue v) := by
  unfold Elements.ofValue
  split
  · exact h.pure _
  · exact h.pure _
  · exact h.stop _

theorem packEach (h : Composable P) {step : Value → Packing Unit} (hstep : ∀ v, P Unit (step v)) (n : Nat)
    (items : List Value) : P Unit (Elements.packEach step n items) := by
  induction n generalizing items with
  | zero => exact h.pure ()
  | succ n ih =>
    rw [Elements.packEach_succ]
    exact h.bind (hstep _) fun _ => ih _

/-- Elements are written by writing one after another, or as one block of numbers. -/
theorem elements (h : Composable P) {item : Candidate}
    (hrun : ∀ schema v, Γ.registry.resolve item = .ok schema → P Unit (run schema v)) (items : List Value) (n : Nat) :
    P Unit (Elements.pack Γ run item items n) := by
  refine h.resolve ?_
  intro schema hc
  split
  · unfold Elements.packNumbers
    split
    · exact h.appends (Number.written_packBlock _ _ _ _)
    · exact h.packEach (h.number _) n items
  · exact h.packEach (fun v => hrun schema v hc) n items

theorem array (h : Composable P) {item : Candidate}
    (hrun : ∀ schema v, Γ.registry.resolve item = .ok schema → P Unit (run schema v)) (count : Count) (v : Value) :
    P Unit (Elements.packArray Γ run item count v) :=
  h.bind (h.elementsOf v) fun _ => h.bind (h.count count _) fun _ => h.elements hrun _ _

/-- The fields of a union are written to outputs of their own, in the body of the union, so nothing is asked of them. -/
theorem union (h : Composable P) (fields : Candidate → Value → Packing Unit) (layout : Layout) (size : Nat) (v : Value) :
    P Unit (Body.packUnion fields layout size v) :=
  h.bind (h.ofExcept _) fun _ => h.bind (h.detached (Body.detached_overlayFields fields v _ _ _)) fun region => h.emit region

end Composable

end Packing

/-- In a body that notes the field, a linked array writes its count over it, and then its elements. -/
theorem Sibling.packLink_eq {Γ : Context} {run : Schema → Value → Packing Unit} {field : String} {item counter : Candidate}
    {scope : Scope} {offset : Nat} (hcounter : scope.fieldSchema? field = some counter) (hoffset : scope.offset? field = some offset)
    {v : Value} {items : List Value} (hitems : Elements.ofValue v = pure items) (out : Bytes) :
    packLink Γ run field item v ⟨out, some scope⟩ =
      (countBytes Γ run counter items.length >>= fun count => Packing.onOutput (fun out => .ok (out.patch offset count)) >>= fun _ =>
        Elements.pack Γ run item items items.length) ⟨out, some scope⟩ := by
  rw [packLink, hitems, pure_bind, Walk.bind_apply]
  simp only [Walk.requireScope, hcounter, hoffset]

end WireLayout
