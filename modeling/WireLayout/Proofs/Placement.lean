import WireLayout.Proofs.Writing

/-!
# Writing at another place

Bodies note where their fields start as offsets in the output, and a linked array writes its count over such an offset. `Movable`
says that a step behind other bytes, with the noted offsets moved by `k`, writes the same bytes behind them. Where offsets are moved
by as many bytes as stand in front, every step that packing is made of is movable. In an output of its own, in a transformed region,
the bytes in front are none while the offsets of the body around may be moved all the same: there a linked array must not look
at them.
-/

namespace WireLayout

namespace Scope

/-- The same body with all noted offsets moved by `k`. -/
def shift (s : Scope) (k : Nat) : Scope := { s with offsets := s.offsets.map fun entry => (entry.1, k + entry.2) }

@[simp]
theorem field?_shift (s : Scope) (k : Nat) (key : String) : (s.shift k).field? key = s.field? key := rfl

@[simp]
theorem fieldSchema?_shift (s : Scope) (k : Nat) (key : String) : (s.shift k).fieldSchema? key = s.fieldSchema? key := rfl

@[simp]
theorem isExited_shift (s : Scope) (k : Nat) : (s.shift k).isExited = s.isExited := rfl

theorem offset?_shift (s : Scope) (k : Nat) (key : String) : (s.shift k).offset? key = (s.offset? key).map (k + ·) := by
  simp only [offset?, shift]
  induction s.offsets with
  | nil => rfl
  | cons entry rest ih =>
    obtain ⟨key', offset⟩ := entry
    rw [List.map_cons, Keyed.lookup_cons, Keyed.lookup_cons, ih]
    split <;> rfl

theorem mark_shift (s : Scope) (k : Nat) (key : String) (offset : Nat) :
    (s.shift k).mark key (k + offset) = (s.mark key offset).shift k := by
  simp only [mark, shift, mk.injEq, true_and, and_true]
  induction s.offsets with
  | nil => rfl
  | cons entry rest ih =>
    obtain ⟨key', offset'⟩ := entry
    rw [List.map_cons, Keyed.insert, Keyed.insert, ih]
    split <;> rfl

end Scope

/-- The same output behind other bytes, with the offsets of the body around moved by `k`. -/
def WalkState.behind (s : WalkState Bytes) (front : Bytes) (k : Nat) : WalkState Bytes :=
  ⟨front ++ s.medium, s.scope.map (·.shift k)⟩

/-- The layout of the body around. -/
def WalkState.body {μ : Type} (s : WalkState μ) : Option Layout := s.scope.map (·.layout)

namespace Packing

variable {α β : Type} {front : Bytes} {k : Nat} {body : Option Layout}

/-- In a body of this layout the step does the same behind other bytes, with the offsets of the body moved by `k`, and it leaves the
layout as it is. -/
structure Movable (front : Bytes) (k : Nat) (body : Option Layout) (step : Packing α) : Prop where
  moved : ∀ s, s.body = body → step (s.behind front k) = (step s).map fun result => (result.1, result.2.behind front k)
  keeps : ∀ s a s', s.body = body → step s = .ok (a, s') → s'.body = body

namespace Movable

theorem bind {step : Packing α} {next : α → Packing β} (h : Movable front k body step)
    (hnext : ∀ a, Movable front k body (next a)) : Movable front k body (step >>= next) where
  moved s hs := by
    rw [Walk.bind_apply, Walk.bind_apply, h.moved s hs]
    cases hrun : step s with
    | error stop => rfl
    | ok result => exact (hnext result.1).moved result.2 (h.keeps s result.1 result.2 hs hrun)
  keeps s b s' hs hrun := by
    obtain ⟨a, s₁, h₁, h₂⟩ := Walk.bind_eq_ok.mp hrun
    exact (hnext a).keeps s₁ b s' (h.keeps s a s₁ hs h₁) h₂

/-- A step that looks at the scope, but not at offsets. -/
theorem onScope {f : Option Scope → Except Stop (α × Option Scope)}
    (hmoved : ∀ scope, f (scope.map (·.shift k)) = (f scope).map fun result => (result.1, result.2.map (·.shift k)))
    (hkeeps : ∀ scope a scope', f scope = .ok (a, scope') → scope'.map (·.layout) = scope.map (·.layout)) :
    Movable front k body (Walk.onScope f) where
  moved s _ := by
    simp only [Walk.onScope, WalkState.behind, hmoved]
    cases f s.scope <;> rfl
  keeps s a s' hs hrun := by
    obtain ⟨_, scope, hf, ⟨⟩⟩ := Walk.onScope_eq_ok.mp hrun
    exact (hkeeps s.scope a scope hf).trans hs

theorem sibling (kind field : String) : Movable front k body (Walk.sibling kind field) := by
  rw [Walk.sibling_eq_onScope]
  refine onScope ?_ ?_
  · intro scope
    cases scope with
    | none => rfl
    | some scope =>
      simp only [Option.map_some, Scope.field?_shift]
      cases scope.field? field <;> rfl
  · intro scope v scope' hrun
    cases scope with
    | none => cases hrun
    | some scope =>
      dsimp only at hrun
      split at hrun <;> cases hrun
      rfl

theorem exitScope (kind : String) : Movable front k body (Walk.exitScope kind) := by
  rw [Walk.exitScope_eq_onScope]
  refine onScope ?_ ?_
  · intro scope
    cases scope <;> rfl
  · intro scope a scope' hrun
    cases scope <;> cases hrun
    rfl

theorem onOutput {f : Bytes → Except Fault Bytes} (hf : Written f) : Movable front k body (onOutput f) where
  moved s _ := by
    simp only [Packing.onOutput, WalkState.behind, hf front s.medium]
    cases f s.medium <;> rfl
  keeps s a s' hs hrun := by
    simp only [Packing.onOutput] at hrun
    split at hrun <;> cases hrun
    exact hs

theorem detached {step : Packing α} (h : Walk.Detached step) : Movable front k body step where
  moved s _ := by
    rw [h (s.behind front k) s, h s s]
    cases step s <;> rfl
  keeps s a s' hs hrun := by
    rw [h s s] at hrun
    cases hstep : step s with
    | error stop =>
      rw [hstep] at hrun
      cases hrun
    | ok result =>
      rw [hstep] at hrun
      cases hrun
      exact hs

theorem compositional (front : Bytes) (k : Nat) (body : Option Layout) : Compositional fun _ step => Movable front k body step where
  bind := bind
  appends := onOutput
  exitScope := exitScope
  detached := detached

/-- What is written to an output of its own must not depend on moved offsets, with no bytes in front. -/
theorem collect {step : Packing Unit} (h : Movable #[] k body step) : Movable front k body (collect step) where
  moved s hs := by
    have hmoved := h.moved ⟨#[], s.scope⟩ hs
    simp only [WalkState.behind, Array.empty_append] at hmoved
    simp only [Packing.collect, Walk.bind_apply, Walk.aside, WalkState.behind, hmoved]
    cases step ⟨#[], s.scope⟩ <;> rfl
  keeps s a s' hs hrun := by
    obtain ⟨inner, hstep, ⟨⟩⟩ := Packing.collect_eq_ok.mp hrun
    exact h.keeps ⟨#[], s.scope⟩ _ inner hs hstep

/-! ### Bodies -/

/-- A step inside a body does not see the body around it. -/
theorem within_moved {step : Packing α} {scope : Scope} (h : Movable front front.size (some scope.layout) step)
    (s : WalkState Bytes) :
    Walk.within (scope.shift front.size) step (s.behind front k) =
      (Walk.within scope step s).map fun result =>
        ((result.1.1, result.1.2.shift front.size), result.2.behind front k) := by
  have hmoved := h.moved ⟨s.medium, some scope⟩ rfl
  simp only [WalkState.behind, Option.map_some] at hmoved
  simp only [Walk.within, WalkState.behind, hmoved]
  cases hrun : step ⟨s.medium, some scope⟩ with
  | error stop => rfl
  | ok result =>
    obtain ⟨a, medium, inner⟩ := result
    cases inner <;> rfl

/-- A step inside a body leaves its layout as it is. -/
theorem within_keeps {step : Packing α} {scope scope' : Scope} {layout : Layout} (h : Movable front k (some layout) step)
    (hlayout : scope.layout = layout) {s s' : WalkState Bytes} {a : α}
    (hrun : Walk.within scope step s = .ok ((a, scope'), s')) : scope'.layout = layout ∧ s'.scope = s.scope := by
  obtain ⟨_, ⟨medium, inner⟩, hstep, ⟨⟩⟩ := Walk.within_eq_ok.mp hrun
  have hkeeps := h.keeps ⟨s.medium, some scope⟩ a _ (by rw [← hlayout]; rfl) hstep
  cases inner with
  | none => exact ⟨hlayout, rfl⟩
  | some inner => exact ⟨Option.some.inj hkeeps, rfl⟩

/-- Fields start behind the bytes in front, and their offsets are noted so. -/
theorem packFields_moved {run : Candidate → Value → Packing Unit} {layout : Layout} {entries : Keyed Candidate}
    (hrun : ∀ before key c after v, entries = before ++ (key, c) :: after →
      Movable front front.size (some layout) (run c v))
    (v : Value) {scope : Scope} (hscope : scope.layout = layout) (s : WalkState Bytes) :
    Body.packFields run v entries (scope.shift front.size) (s.behind front k) =
      (Body.packFields run v entries scope s).map fun result => (result.1, result.2.behind front k) := by
  induction entries generalizing scope s with
  | nil => rfl
  | cons entry rest ih =>
    obtain ⟨key, c⟩ := entry
    have hfield := hrun [] key c rest ((v.get? key).getD .null) rfl
    have hrest : ∀ before key' c' after v, rest = before ++ (key', c') :: after →
        Movable front front.size (some layout) (run c' v) := by
      intro before key' c' after v hsplit
      exact hrun ((key, c) :: before) key' c' after v (by rw [hsplit]; rfl)
    rw [Body.packFields, Body.packFields, Scope.isExited_shift]
    by_cases hexit : scope.isExited = true
    · rw [if_pos hexit, if_pos hexit]
      rfl
    · rw [if_neg hexit, if_neg hexit]
      have hstart : (s.behind front k).medium.size = front.size + s.medium.size := Array.size_append
      rw [Walk.bind_apply, Walk.bind_apply]
      simp only [Packing.position, hstart]
      rw [Walk.bind_apply, Walk.bind_apply, Scope.mark_shift, within_moved (by rw [← hscope] at hfield; exact hfield)]
      cases hwithin : Walk.within (scope.mark key s.medium.size) (run c ((v.get? key).getD .null)) s with
      | error stop => rfl
      | ok result =>
        obtain ⟨⟨⟨⟩, scope'⟩, s'⟩ := result
        have hmark : (scope.mark key s.medium.size).layout = layout := hscope
        exact ih hrest (within_keeps hfield hmark hwithin).1 s'

/-- Fields leave the body around as it is. -/
theorem packFields_scope {run : Candidate → Value → Packing Unit} (entries : Keyed Candidate) (v : Value) {scope : Scope}
    {s s' : WalkState Bytes} (h : Body.packFields run v entries scope s = .ok ((), s')) : s'.scope = s.scope := by
  induction entries generalizing scope s with
  | nil =>
    cases h
    rfl
  | cons entry rest ih =>
    obtain ⟨key, c⟩ := entry
    rw [Body.packFields] at h
    split at h
    · cases h
      rfl
    · obtain ⟨start, s₁, h₁, hfield⟩ := Walk.bind_eq_ok.mp h
      obtain ⟨⟨⟨⟩, scope'⟩, s₂, h₂, hrest⟩ := Walk.bind_eq_ok.mp hfield
      obtain ⟨_, _, -, ⟨⟩⟩ := Walk.within_eq_ok.mp h₂
      cases h₁
      exact (ih hrest : s'.scope = _)

/-- An object is written the same behind other bytes, whatever was noted in the body around. -/
theorem object {run : Candidate → Value → Packing Unit} {layout : Layout}
    (hrun : ∀ before key c after v, layout.entries = before ++ (key, c) :: after →
      Movable front front.size (some layout) (run c v))
    (v : Value) : Movable front k body (Body.packObject run layout v) := by
  refine ((compositional front k body).ofExcept _).bind fun _ => ⟨fun s _ => ?_, fun s a s' hs h => ?_⟩
  · have hwriting : (Scope.writing layout v).layout = layout := rfl
    exact packFields_moved hrun v hwriting s
  · rw [WalkState.body, packFields_scope _ v h]
    exact hs

end Movable

end Packing

end WireLayout
