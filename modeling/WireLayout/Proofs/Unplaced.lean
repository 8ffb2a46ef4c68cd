import WireLayout.Proofs.Leaving

/-!
# Bodies without places

The fields of a union all start at the same place, and none of these starts is noted. In such a body nothing is written over the
bytes of a sibling field, so what a field writes does not depend on the layout around (`Codec.pack_ignoresLayout`): neither on the
fields that come later nor on how they are spelled. Only a user-defined kind can tell, because it may ask for the schema text of a
sibling.
-/

namespace WireLayout

/-- The same body with another layout. -/
def Scope.relaid (layout : Layout) (s : Scope) : Scope := { s with layout }

namespace Walk

variable {μ α β : Type}

/-- A step does the same whatever the layout of the body around, as long as no start of a field is noted there. -/
def IgnoresLayout (step : Walk μ α) : Prop :=
  ∀ medium s layout, s.offsets = [] → step ⟨medium, some (s.relaid layout)⟩ =
    (step ⟨medium, some s⟩).map fun result => (result.1, ⟨result.2.medium, result.2.scope.map (Scope.relaid layout)⟩)

theorem Scopeless.ignoresLayout {step : Walk μ α} (h : Scopeless step) : IgnoresLayout step := by
  intro medium s layout _
  rw [h medium (some (s.relaid layout)), h medium (some s)]
  cases step ⟨medium, none⟩ <;> rfl

theorem IgnoresLayout.exitScope (kind : String) : IgnoresLayout (Walk.exitScope kind : Walk μ Unit) := fun _ _ _ _ => rfl

theorem IgnoresLayout.sibling (kind field : String) : IgnoresLayout (Walk.sibling kind field : Walk μ Value) := by
  intro medium s layout _
  have same : (s.relaid layout).field? field = s.field? field := rfl
  simp only [sibling_eq_onScope, onScope, same]
  cases s.field? field <;> rfl

theorem IgnoresLayout.aside {step : Walk μ α} (h : IgnoresLayout step) (other : μ) : IgnoresLayout (Walk.aside other step) := by
  intro medium s layout unplaced
  simp only [Walk.aside, h other s layout unplaced]
  cases step ⟨other, some s⟩ <;> rfl

/-- The first step leaves the body or not, and notes nothing. -/
theorem IgnoresLayout.bind {step : Walk μ α} {next : α → Walk μ β} (h : IgnoresLayout step) (leaves : Leaves step)
    (hnext : ∀ a, IgnoresLayout (next a)) : IgnoresLayout (step >>= next) := by
  intro medium s layout unplaced
  rw [bind_apply, bind_apply, h medium s layout unplaced]
  cases first : step ⟨medium, some s⟩ with
  | error stop => rfl
  | ok result =>
    obtain ⟨a, medium₁, scope₁⟩ := result
    obtain ⟨fires, rfl⟩ := leaves _ _ _ first
    exact hnext a medium₁ (s.leave fires) layout unplaced

end Walk

namespace Packing

open Walk

theorem compositional_ignoresLayout : Compositional fun _ step => Leaves step ∧ IgnoresLayout step where
  bind hstep hnext := ⟨hstep.1.bind fun a => (hnext a).1, hstep.2.bind hstep.1 fun a => (hnext a).2⟩
  appends {f} _ := ⟨(scopeless_onOutput f).moves, (scopeless_onOutput f).ignoresLayout⟩
  exitScope kind := ⟨.exitScope kind, .exitScope kind⟩
  detached h := ⟨h.scopeless.moves, h.scopeless.ignoresLayout⟩

variable {Γ : Context} {run : Schema → Value → Packing Unit}

/-- In a union a linked array fails, because it has no place to write its count to. -/
theorem ignoresLayout_packLink (field : String) (item : Candidate) (v : Value) :
    IgnoresLayout (Sibling.packLink Γ run field item v) := by
  have h := compositional_ignoresLayout
  refine (h.elementsOf v).2.bind (h.elementsOf v).1 fun items medium s layout unplaced => ?_
  have nowhere : ∀ t : Scope, t.offsets = [] → t.offset? field = none := by
    intro t ht
    rw [Scope.offset?, ht]
    rfl
  rw [Walk.bind_apply, Walk.bind_apply]
  simp only [Walk.requireScope, nowhere s unplaced, nowhere (s.relaid layout) unplaced]
  cases s.fieldSchema? field <;> cases (s.relaid layout).fieldSchema? field <;> rfl

end Packing

namespace Codec

open Walk

variable {Γ : Context}

/-- What a schema writes in a body without places does not depend on its layout, where no user-defined kind runs inside. -/
theorem pack_ignoresLayout (depth : Nat) {site : Site}
    (plain : Site.Throughout Γ.registry .any (fun site => site.schema.isCustom = false) site) (v : Value) :
    IgnoresLayout (pack Γ depth site.schema v) := by
  have h := Packing.compositional_ignoresLayout
  induction depth generalizing site v with
  | zero => exact (h.stop _).2
  | succ depth ih =>
    have both : ∀ {site : Site}, Site.Throughout Γ.registry .any (fun site => site.schema.isCustom = false) site → ∀ v,
        Leaves (pack Γ depth site.schema v) ∧ IgnoresLayout (pack Γ depth site.schema v) :=
      fun plain v => ⟨pack_leaves depth _ v, ih plain v⟩
    obtain ⟨schema, place, isParsed⟩ := site
    cases schema with
    | number kind => exact (h.number kind v).2
    | array item count => exact (h.array (fun schema v hitem => both (plain.of_runs (.item hitem)) v) count v).2
    | string size => exact (h.text size v).2
    | cstring size => exact (h.terminatedText size v).2
    | object layout => exact (Body.scopeless_packObject _ layout v).ignoresLayout
    | union layout size => exact (h.union _ layout size v).2
    | enums names base => exact (h.enumeration names base v).2
    | depend field selector =>
      refine (IgnoresLayout.sibling "depend" field).bind (.sibling "depend" field) fun w => ?_
      cases selects : selector.select w with
      | error fault => exact (h.stop _).2
      | ok c => exact (h.candidate fun schema hschema => both (plain.of_runs (.selected trivial selects hschema)) v).2
    | link field item => exact Packing.ignoresLayout_packLink field item v
    | computed operator w => exact (h.pure ()).2
    | exit => exact (h.exitScope "exit").2
    | parse encode decode inner size =>
      have content := h.candidate fun schema hschema => both (plain.of_runs (.inner hschema)) v
      have written := h.bind ⟨content.1.aside #[], content.2.aside #[]⟩ fun result => h.pure result.2
      exact (h.bind written fun plain => h.bind (h.ofExcept _) fun encoded => h.region size encoded).2
    | custom extension => exact absurd plain.here (by simp [Schema.isCustom])

end Codec

end WireLayout
