import WireLayout.Scope

/-!
# Walks

A run of a schema walks over a medium: a cursor when it unpacks, the output so far when it packs. `Walk` is the common shape of both
directions, a step that may change the medium and leave the body it is in, and may stop. What looks at siblings, enters a body or
turns to another medium is therefore written once. `Walk.within` and `Walk.aside` bracket a step: the scope, or the medium, of what
is around is put back behind it, so a nested step cannot touch it.
-/

namespace WireLayout

/-- What is fixed for a run. -/
structure Context where
  registry : Registry
  options : Options

/-- What a step can change: the medium, and the body around if there is one. -/
structure WalkState (μ : Type) where
  medium : μ
  scope : Option Scope

/-- A step of a run over the medium `μ`. -/
abbrev Walk (μ : Type) := StateT (WalkState μ) (Except Stop)

/-- A step that reads. -/
abbrev Unpacking := Walk Cursor

/-- A step that writes. -/
abbrev Packing := Walk Bytes

namespace Walk

variable {μ α β : Type}

/-- A sequence of two steps stops where the first one stops, and else goes on from its state. -/
theorem bind_apply (step : Walk μ α) (next : α → Walk μ β) (s : WalkState μ) :
    (step >>= next) s =
      match step s with
      | .ok (a, s) => next a s
      | .error stop => .error stop := by
  show (step s >>= fun p => next p.1 p.2) = _
  cases step s <;> rfl

/-- A sequence of two steps succeeds exactly when both do, one after the other. -/
theorem bind_eq_ok {step : Walk μ α} {next : α → Walk μ β} {s : WalkState μ} {r : β × WalkState μ} :
    (step >>= next) s = .ok r ↔ ∃ a s', step s = .ok (a, s') ∧ next a s' = .ok r := by
  rw [bind_apply]
  cases h : step s with
  | error stop => simp
  | ok p => exact ⟨fun hr => ⟨p.1, p.2, rfl, hr⟩, fun ⟨_, _, hp, hr⟩ => by cases hp; exact hr⟩

@[simp]
theorem pure_apply (a : α) (s : WalkState μ) : (pure a : Walk μ α) s = .ok (a, s) := rfl

/-- Fails. -/
def fail (fault : Fault) : Walk μ α := fun _ => .error (.fault fault)

/-- Gives up. -/
def giveUp : Walk μ α := fun _ => .error .exhausted

/-- A computation that needs no state. -/
def ofExcept (result : Except Fault α) : Walk μ α :=
  match result with
  | .ok a => pure a
  | .error fault => fail fault

/-- Behind a computation that needs no state, a step goes on with its result from the same state. -/
theorem ofExcept_bind_eq_ok {result : Except Fault α} {next : α → Walk μ β} {s : WalkState μ} {r : β × WalkState μ} :
    (ofExcept result >>= next) s = .ok r ↔ ∃ a, result = .ok a ∧ next a s = .ok r := by
  cases result with
  | ok a =>
    constructor
    · intro h
      exact ⟨a, rfl, h⟩
    · rintro ⟨_, ⟨⟩, h⟩
      exact h
  | error fault =>
    constructor
    · rintro ⟨⟩
    · rintro ⟨_, ⟨⟩, -⟩

/-- A step on the medium alone. -/
def onMedium (f : μ → Except Fault (α × μ)) : Walk μ α := fun ⟨medium, scope⟩ =>
  match f medium with
  | .ok (a, medium) => .ok (a, ⟨medium, scope⟩)
  | .error fault => .error (.fault fault)

/-- The medium as it is. -/
def medium : Walk μ μ := fun s => .ok (s.medium, s)

/-- The body around; the fault names the kind of schema that needs it. -/
def requireScope (kind : String) : Walk μ Scope := fun s =>
  match s.scope with
  | some scope => .ok (scope, s)
  | none => .error (.fault (.missingScope kind))

/-- Leaves the body around. -/
def exitScope (kind : String) : Walk μ Unit := fun ⟨medium, scope⟩ =>
  match scope with
  | some scope => .ok ((), ⟨medium, some scope.exit⟩)
  | none => .error (.fault (.missingScope kind))

/-- The value of a sibling field, which must be there already. -/
def sibling (kind field : String) : Walk μ Value := do
  let scope ← requireScope kind
  match scope.field? field with
  | some v => pure v
  | none => fail (.undefinedDependency field)

/-- Runs a step in the scope of another body, and gives that scope behind it; the body around is as before. -/
def within (scope : Scope) (step : Walk μ α) : Walk μ (α × Scope) := fun ⟨medium, around⟩ =>
  match step ⟨medium, some scope⟩ with
  | .ok (a, ⟨medium, inner⟩) => .ok ((a, inner.getD scope), ⟨medium, around⟩)
  | .error stop => .error stop

/-- The medium is that behind the step, and the body around is as before. -/
theorem within_eq_ok {scope : Scope} {step : Walk μ α} {s : WalkState μ} {r : (α × Scope) × WalkState μ} :
    within scope step s = .ok r ↔
      ∃ a s', step ⟨s.medium, some scope⟩ = .ok (a, s') ∧ r = ((a, s'.scope.getD scope), ⟨s'.medium, s.scope⟩) := by
  obtain ⟨medium, around⟩ := s
  rw [within]
  cases step ⟨medium, some scope⟩ with
  | error stop => simp
  | ok result =>
    constructor
    · intro h
      exact ⟨result.1, result.2, rfl, (Except.ok.inj h).symm⟩
    · rintro ⟨_, _, ⟨⟩, rfl⟩
      rfl

/-- Runs a step over another medium, and gives that medium behind it; the medium of what is around is as before. -/
def aside (other : μ) (step : Walk μ α) : Walk μ (α × μ) := fun ⟨medium, scope⟩ =>
  match step ⟨other, scope⟩ with
  | .ok (a, ⟨other, scope⟩) => .ok ((a, other), ⟨medium, scope⟩)
  | .error stop => .error stop

/-- The medium is as before, and the body around is that behind the step. -/
theorem aside_eq_ok {other : μ} {step : Walk μ α} {s : WalkState μ} {r : (α × μ) × WalkState μ} :
    aside other step s = .ok r ↔
      ∃ a s', step ⟨other, s.scope⟩ = .ok (a, s') ∧ r = ((a, s'.medium), ⟨s.medium, s'.scope⟩) := by
  obtain ⟨medium, scope⟩ := s
  rw [aside]
  cases step ⟨other, scope⟩ with
  | error stop => simp
  | ok result =>
    constructor
    · intro h
      exact ⟨result.1, result.2, rfl, (Except.ok.inj h).symm⟩
    · rintro ⟨_, _, ⟨⟩, rfl⟩
      rfl

/-- The schema that a candidate stands for. -/
def resolve (Γ : Context) (c : Candidate) : Walk μ Schema := fun s =>
  match Γ.registry.resolve c with
  | .ok schema => .ok (schema, s)
  | .error stop => .error stop

/-- The kind of number that a candidate stands for; a schema that is no number gives the fault of the given text. -/
def resolveNumber (Γ : Context) (c : Candidate) (fault : Schema → Fault) : Walk μ Number := do
  match ← resolve Γ c with
  | .number kind => pure kind
  | other => fail (fault other)

end Walk

namespace Unpacking

/-- Reads the next `n` bytes. -/
def take (n : Nat) : Unpacking Bytes := Walk.onMedium fun c => c.take n

/-- Reads one number. -/
def number (Γ : Context) (kind : Number) : Unpacking Value := Walk.onMedium fun c => kind.unpack Γ.options.byteOrder c

/-- Reads a value of what a candidate stands for, where `run` reads schemas. -/
def candidate (Γ : Context) (run : Schema → Unpacking Value) (c : Candidate) : Unpacking Value := do
  run (← Walk.resolve Γ c)

/-- Decodes text. -/
def decode (Γ : Context) (bytes : Bytes) : Unpacking String := Walk.ofExcept (Γ.options.encoding.decode bytes)

end Unpacking

namespace Packing

/-- A step that only changes the output. -/
def onOutput (f : Bytes → Except Fault Bytes) : Packing Unit := fun ⟨out, scope⟩ =>
  match f out with
  | .ok out => .ok ((), ⟨out, scope⟩)
  | .error fault => .error (.fault fault)

/-- Appends bytes. -/
def emit (bytes : Bytes) : Packing Unit := fun ⟨out, scope⟩ => .ok ((), ⟨out ++ bytes, scope⟩)

/-- The number of bytes written so far. -/
def position : Packing Nat := fun s => .ok (s.medium.size, s)

/-- Appends one number. -/
def number (Γ : Context) (kind : Number) (v : Value) : Packing Unit := onOutput fun out => kind.pack Γ.options.byteOrder v out

/-- Writes a value of what a candidate stands for, where `run` writes schemas. -/
def candidate (Γ : Context) (run : Schema → Value → Packing Unit) (c : Candidate) (v : Value) : Packing Unit := do
  run (← Walk.resolve Γ c) v

/-- Encodes text. -/
def encode (Γ : Context) (text : String) : Packing Bytes := Walk.ofExcept (Γ.options.encoding.encode text)

/-- Runs a step on an output of its own, and gives what it wrote. -/
def collect (step : Packing Unit) : Packing Bytes := do
  let ((), written) ← Walk.aside #[] step
  pure written

/-- What a step writes to an output of its own is given, and the output around is as before. -/
theorem collect_eq_ok {step : Packing Unit} {s : WalkState Bytes} {r : Bytes × WalkState Bytes} :
    collect step s = .ok r ↔ ∃ s', step ⟨#[], s.scope⟩ = .ok ((), s') ∧ r = (s'.medium, ⟨s.medium, s'.scope⟩) := by
  rw [collect, Walk.bind_eq_ok]
  constructor
  · rintro ⟨_, _, hstep, hr⟩
    obtain ⟨⟨⟩, inner, hinner, ⟨⟩⟩ := Walk.aside_eq_ok.mp hstep
    cases hr
    exact ⟨inner, hinner, rfl⟩
  · rintro ⟨s', hstep, rfl⟩
    exact ⟨_, _, Walk.aside_eq_ok.mpr ⟨(), s', hstep, rfl⟩, rfl⟩

end Packing

end WireLayout
