import WireLayout.Proofs.Writing

/-!
# The body around, before and behind a step

`Walk.Moves` says that a step that succeeds takes the body around to a related one. When every body is related to itself, and relations
can be chained, this is kept by the ways of putting steps together, in either direction. What leaves a body, and what enters one, is up
to the relation.
-/

namespace WireLayout

namespace Walk

variable {μ α β : Type} {R : Option Scope → Option Scope → Prop}

/-- Successful runs take the body around to a related one. -/
def Moves (R : Option Scope → Option Scope → Prop) (step : Walk μ α) : Prop := ∀ s a s', step s = .ok (a, s') → R s.scope s'.scope

theorem Moves.stop (stop : Stop) : Moves R (fun _ => .error stop : Walk μ α) := nofun

theorem Moves.aside {step : Walk μ α} (h : Moves R step) (other : μ) : Moves R (Walk.aside other step) := by
  intro s a s' hs
  obtain ⟨b, inner, hstep, ⟨⟩⟩ := Walk.aside_eq_ok.mp hs
  exact h ⟨other, s.scope⟩ b inner hstep

theorem Moves.onScope {f : Option Scope → Except Stop (α × Option Scope)}
    (moves : ∀ scope a scope', f scope = .ok (a, scope') → R scope scope') : Moves R (Walk.onScope f : Walk μ α) := by
  intro s a s' hs
  obtain ⟨_, scope, hf, ⟨⟩⟩ := Walk.onScope_eq_ok.mp hs
  exact moves s.scope a scope hf

theorem Moves.resolve {Γ : Context} {c : Candidate} {next : Schema → Walk μ α}
    (hnext : ∀ schema, Γ.registry.resolve c = .ok schema → Moves R (next schema)) : Moves R (Walk.resolve Γ c >>= next) := by
  cases hc : Γ.registry.resolve c with
  | ok schema =>
    rw [Walk.resolve_bind_ok hc]
    exact hnext schema hc
  | error stop =>
    rw [Walk.resolve_bind_error hc]
    exact Moves.stop stop

variable [IsPreorder (Option Scope) R]

theorem Moves.bind {step : Walk μ α} {next : α → Walk μ β} (h : Moves R step) (hnext : ∀ a, Moves R (next a)) :
    Moves R (step >>= next) := by
  intro s b s' hs
  obtain ⟨a, s₁, h₁, h₂⟩ := bind_eq_ok.mp hs
  exact trans_of R (h s a s₁ h₁) (hnext a s₁ b s' h₂)

/-- What does not look at the body around leaves it as it is. -/
theorem Scopeless.moves {step : Walk μ α} (h : Scopeless step) : Moves R step := by
  intro ⟨medium, scope⟩ a s' hs
  have hkeep := h medium scope
  rw [hs] at hkeep
  cases hnone : step ⟨medium, none⟩ with
  | error stop =>
    rw [hnone] at hkeep
    cases hkeep
  | ok result =>
    rw [hnone] at hkeep
    cases hkeep
    exact refl_of R scope

theorem Moves.pure (a : α) : Moves R (Pure.pure a : Walk μ α) := (Scopeless.pure a).moves

theorem Moves.ofExcept (result : Except Fault α) : Moves R (Walk.ofExcept result : Walk μ α) := (Scopeless.ofExcept result).moves

theorem Moves.onMedium (f : μ → Except Fault (α × μ)) : Moves R (Walk.onMedium f) := (Scopeless.onMedium f).moves

theorem Moves.requireScope (kind : String) : Moves R (Walk.requireScope kind : Walk μ Scope) := by
  intro ⟨medium, scope⟩ a s' hs
  cases scope with
  | none => cases hs
  | some scope =>
    cases hs
    exact refl_of R _

theorem Moves.sibling (kind field : String) : Moves R (Walk.sibling kind field : Walk μ Value) := by
  refine (Moves.requireScope kind).bind fun scope => ?_
  split
  · exact Moves.pure _
  · exact Moves.stop _

end Walk

open Walk

variable {R : Option Scope → Option Scope → Prop} [IsPreorder (Option Scope) R]

theorem Unpacking.composable_moves : Unpacking.Composable fun _ step => Moves R step where
  look keeps := Moves.onScope fun scope a scope' hf => keeps scope a scope' hf ▸ refl_of R scope
  bind hstep hnext := hstep.bind hnext
  take _ := Moves.onMedium _
  terminated := Moves.onMedium _

theorem Elements.moves_untilEnd {step : Unpacking Value} (hstep : Moves R step) (rounds : Nat) (done : List Value) :
    Moves R (untilEnd step rounds done) := by
  induction rounds generalizing done with
  | zero => exact Moves.stop _
  | succ rounds ih =>
    intro s a s' hs
    simp only [untilEnd] at hs
    split at hs
    · cases hs
      exact refl_of R _
    · split at hs
      · next v s₁ hv =>
        have hfirst := hstep s v s₁ hv
        split at hs
        · cases hs
          exact hfirst
        · exact trans_of R hfirst (ih (v :: done) s₁ a s' hs)
      · cases hs

theorem Unpacking.openEnded_moves : Unpacking.OpenEnded fun _ step => Moves R step where
  remaining := Moves.bind Scopeless.medium.moves fun _ => Moves.pure _
  untilEnd hstep := Moves.bind Scopeless.medium.moves fun _ => Elements.moves_untilEnd hstep _ _

theorem Packing.composable_moves : Packing.Composable fun _ step => Moves R step where
  bind hstep hnext := hstep.bind hnext
  appends {f} _ := (Packing.scopeless_onOutput f).moves
  detached h := h.scopeless.moves

theorem Packing.moves_collect {step : Packing Unit} (hstep : Moves R step) : Moves R (Packing.collect step) :=
  (hstep.aside #[]).bind fun _ => Moves.pure _

end WireLayout
