import WireLayout.Proofs.Reading

/-!
# Bodies and the body around

The body of an object or a union opens a scope of its own and puts the one around back, so neither direction sees the body around
(`Walk.Scopeless`). The fields of a union are written to outputs of their own besides, so they see nothing around at all
(`Walk.Detached`).
-/

namespace WireLayout

namespace Walk

variable {μ α β : Type}

/-- A step that neither looks at the body around nor changes it. -/
def Scopeless (step : Walk μ α) : Prop :=
  ∀ medium scope, step ⟨medium, scope⟩ = (step ⟨medium, none⟩).map fun result => (result.1, ⟨result.2.medium, scope⟩)

/-- A step that looks at nothing around, not even at the medium. -/
def Detached (step : Walk μ α) : Prop := ∀ s s', step s = (step s').map fun result => (result.1, s)

theorem Scopeless.bind {step : Walk μ α} {next : α → Walk μ β} (h : Scopeless step) (hnext : ∀ a, Scopeless (next a)) :
    Scopeless (step >>= next) := by
  intro medium scope
  have hkeep := h medium none
  rw [bind_apply, bind_apply, h medium scope]
  cases hrun : step ⟨medium, none⟩ with
  | error stop => rfl
  | ok result =>
    obtain ⟨a, medium', scope'⟩ := result
    rw [hrun] at hkeep
    cases hkeep
    exact hnext a medium' scope

theorem Scopeless.pure (a : α) : Scopeless (Pure.pure a : Walk μ α) := fun _ _ => rfl

theorem Scopeless.stop (stop : Stop) : Scopeless (fun _ => .error stop : Walk μ α) := fun _ _ => rfl

theorem Scopeless.medium : Scopeless (Walk.medium : Walk μ μ) := fun _ _ => rfl

theorem Scopeless.ofExcept (result : Except Fault α) : Scopeless (Walk.ofExcept result : Walk μ α) := by
  cases result <;> exact fun _ _ => rfl

theorem Scopeless.onMedium (f : μ → Except Fault (α × μ)) : Scopeless (Walk.onMedium f) := by
  intro medium scope
  simp only [Walk.onMedium]
  cases f medium <;> rfl

/-- Whatever runs in another body does not see the body around that one. -/
theorem Scopeless.within (inner : Scope) (step : Walk μ α) : Scopeless (Walk.within inner step) := by
  intro medium scope
  simp only [Walk.within]
  cases step ⟨medium, some inner⟩ <;> rfl

theorem Detached.bind {step : Walk μ α} {next : α → Walk μ β} (h : Detached step) (hnext : ∀ a, Detached (next a)) :
    Detached (step >>= next) := by
  intro s s'
  rw [bind_apply, bind_apply, h s s', h s' s']
  cases step s' with
  | error stop => rfl
  | ok result => exact hnext result.1 s s'

theorem Detached.pure (a : α) : Detached (Pure.pure a : Walk μ α) := fun _ _ => rfl

theorem Detached.scopeless {step : Walk μ α} (h : Detached step) : Scopeless step := by
  intro medium scope
  rw [h ⟨medium, scope⟩ ⟨medium, none⟩, h ⟨medium, none⟩ ⟨medium, none⟩]
  cases step ⟨medium, none⟩ <;> rfl

end Walk

open Walk

theorem Count.scopeless_ofValue (v : Value) : Scopeless (ofValue v) := by
  unfold ofValue
  split
  · exact .pure _
  · exact .stop _

theorem Packing.scopeless_onOutput (f : Bytes → Except Fault Bytes) : Scopeless (onOutput f) := by
  intro out scope
  simp only [onOutput]
  cases f out <;> rfl

namespace Body

/-! ## Bodies do not see the body around -/

theorem scopeless_unpackFields (run : Candidate → Unpacking Value) (entries : Keyed Candidate) (scope : Scope) :
    Scopeless (unpackFields run entries scope) := by
  induction entries generalizing scope with
  | nil => exact .pure _
  | cons entry rest ih =>
    obtain ⟨key, c⟩ := entry
    rw [unpackFields]
    split
    · exact ih _
    · exact (Scopeless.within scope _).bind fun _ => ih _

theorem scopeless_unpackObject (run : Candidate → Unpacking Value) (layout : Layout) : Scopeless (unpackObject run layout) :=
  (scopeless_unpackFields run _ _).bind fun _ => .pure _

theorem scopeless_unpackUnion (run : Candidate → Unpacking Value) (layout : Layout) (size : Nat) :
    Scopeless (unpackUnion run layout size) :=
  (Scopeless.onMedium _).bind fun _ => (scopeless_unpackFields _ _ _).bind fun _ => .pure _

theorem scopeless_packFields (run : Candidate → Value → Packing Unit) (v : Value) (entries : Keyed Candidate) (scope : Scope) :
    Scopeless (packFields run v entries scope) := by
  induction entries generalizing scope with
  | nil => exact .pure _
  | cons entry rest ih =>
    obtain ⟨key, c⟩ := entry
    rw [packFields]
    split
    · exact .pure _
    · have hposition : Scopeless Packing.position := fun _ _ => rfl
      exact hposition.bind fun start => (Scopeless.within _ _).bind fun _ => ih _

theorem scopeless_packObject (run : Candidate → Value → Packing Unit) (layout : Layout) (v : Value) :
    Scopeless (packObject run layout v) :=
  (Scopeless.ofExcept _).bind fun _ => scopeless_packFields run v _ _

/-- The fields of a union are written to outputs of their own, in the scope of the union. -/
theorem detached_overlayFields (run : Candidate → Value → Packing Unit) (v : Value) (entries : Keyed Candidate) (scope : Scope)
    (region : Bytes) : Detached (overlayFields run v entries scope region) := by
  induction entries generalizing scope region with
  | nil => exact .pure _
  | cons entry rest ih =>
    obtain ⟨key, c⟩ := entry
    rw [overlayFields]
    split
    · exact .pure _
    · split
      · exact ih _ _
      · next content _ =>
        have hfield : Detached (Walk.within scope (Packing.collect (run c content))) := by
          intro s s'
          simp only [Walk.within, Packing.collect, Walk.bind_apply, Walk.aside]
          cases run c content ⟨#[], some scope⟩ <;> rfl
        exact hfield.bind fun _ => ih _ _

theorem scopeless_packUnion (run : Candidate → Value → Packing Unit) (layout : Layout) (size : Nat) (v : Value) :
    Scopeless (packUnion run layout size v) := by
  have hemit : ∀ region, Scopeless (Packing.emit region) := fun _ _ _ => rfl
  exact (Scopeless.ofExcept _).bind fun _ => (detached_overlayFields run v _ _ _).scopeless.bind hemit

end Body

end WireLayout
