import WireLayout.Codec

/-!
# Running part of a body

What an object writes up to some field, and the scope in which the field runs then (`Body.packFirst`). Running all fields is running
the first ones and then the others (`packFields_append`, `unpackFields_append`), so what is known of a field can be told where it
stands.
-/

namespace WireLayout

namespace Body

variable {run : Candidate → Value → Packing Unit} {v : Value} {scope : Scope}

/-- Writes fields one after another, and gives the scope behind them. -/
def packFirst (run : Candidate → Value → Packing Unit) (v : Value) : Keyed Candidate → Scope → Packing Scope
  | [], scope => pure scope
  | (key, field) :: rest, scope =>
    if scope.isExited then pure scope
    else do
      let start ← Packing.position
      let ((), scope) ← Walk.within (scope.mark key start) (run field ((v.get? key).getD .null))
      packFirst run v rest scope

theorem packFirst_exited {entries : Keyed Candidate} (hexit : scope.isExited = true) : packFirst run v entries scope = pure scope := by
  cases entries with
  | nil => rfl
  | cons entry rest => rw [packFirst, if_pos hexit]

/-- A field runs in the scope of the body, where its start is noted, and the next ones run behind it. -/
theorem packFirst_cons {key : String} {c : Candidate} {rest : Keyed Candidate} (hexit : scope.isExited = false) (out : Bytes)
    (around : Option Scope) :
    packFirst run v ((key, c) :: rest) scope ⟨out, around⟩ =
      match run c ((v.get? key).getD .null) ⟨out, some (scope.mark key out.size)⟩ with
      | .ok (_, ⟨out', inner⟩) => packFirst run v rest (inner.getD (scope.mark key out.size)) ⟨out', around⟩
      | .error stop => .error stop := by
  have hopen : ¬scope.isExited = true := by simp [hexit]
  rw [packFirst, if_neg hopen, Walk.bind_apply]
  simp only [Packing.position, Walk.bind_apply, Walk.within]
  cases run c ((v.get? key).getD .null) ⟨out, some (scope.mark key out.size)⟩ <;> rfl

theorem packFields_eq (entries : Keyed Candidate) (scope : Scope) :
    packFields run v entries scope = packFirst run v entries scope >>= fun _ => pure () := by
  induction entries generalizing scope with
  | nil => rfl
  | cons entry rest ih =>
    obtain ⟨key, c⟩ := entry
    rw [packFields, packFirst]
    split
    · rfl
    · simp only [ih, bind_assoc]

theorem packFirst_append (first rest : Keyed Candidate) (scope : Scope) :
    packFirst run v (first ++ rest) scope = packFirst run v first scope >>= packFirst run v rest := by
  induction first generalizing scope with
  | nil => exact (pure_bind _ _).symm
  | cons entry first ih =>
    obtain ⟨key, c⟩ := entry
    rw [List.cons_append, packFirst, packFirst]
    split
    · next hexit => rw [pure_bind, packFirst_exited hexit]
    · simp only [ih, bind_assoc]

/-- Once the first fields are written, the others are. -/
theorem packFields_append (first rest : Keyed Candidate) (scope : Scope) :
    packFields run v (first ++ rest) scope = packFirst run v first scope >>= packFields run v rest := by
  have hrest : packFields run v rest = fun scope => packFirst run v rest scope >>= fun _ => pure () := funext (packFields_eq rest)
  rw [packFields_eq, packFirst_append, hrest, bind_assoc]

/-- What the last field writes is all that is written in its place. -/
theorem packFields_single {key : String} {c : Candidate} (inside : scope.isExited = false) {out : Bytes} {around : Option Scope}
    {s : WalkState Bytes} (h : packFields run v [(key, c)] scope ⟨out, around⟩ = .ok ((), s)) :
    ∃ inner, run c ((v.get? key).getD .null) ⟨out, some (scope.mark key out.size)⟩ = .ok ((), ⟨s.medium, inner⟩) := by
  rw [packFields_eq, Walk.bind_apply, packFirst_cons inside] at h
  cases hrun : run c ((v.get? key).getD .null) ⟨out, some (scope.mark key out.size)⟩ with
  | error stop =>
    rw [hrun] at h
    cases h
  | ok result =>
    rw [hrun] at h
    cases h
    exact ⟨_, rfl⟩

/-- An object is written when its value has the shape that the layout asks for: the first fields, and then the others. -/
theorem packObject_eq_ok {layout : Layout} {first rest : Keyed Candidate} (split : layout.entries = first ++ rest)
    {s : WalkState Bytes} {r : Unit × WalkState Bytes} :
    packObject run layout v s = .ok r ↔ checkShape layout v = .ok () ∧
      ∃ scope s₁, packFirst run v first (.writing layout v) s = .ok (scope, s₁) ∧ packFields run v rest scope s₁ = .ok r := by
  rw [packObject, Walk.ofExcept_bind_eq_ok, split, packFields_append]
  constructor
  · rintro ⟨⟨⟩, shape, h⟩
    exact ⟨shape, Walk.bind_eq_ok.mp h⟩
  · rintro ⟨shape, h⟩
    exact ⟨(), shape, Walk.bind_eq_ok.mpr h⟩

/-- Once the first fields are read, the others are. -/
theorem unpackFields_append (run : Candidate → Unpacking Value) (first rest : Keyed Candidate) (scope : Scope) :
    unpackFields run (first ++ rest) scope = unpackFields run first scope >>= unpackFields run rest := by
  induction first generalizing scope with
  | nil => exact (pure_bind _ _).symm
  | cons entry first ih =>
    obtain ⟨key, c⟩ := entry
    rw [List.cons_append, unpackFields, unpackFields]
    split
    · exact ih _
    · simp only [ih, bind_assoc]

end Body

end WireLayout
