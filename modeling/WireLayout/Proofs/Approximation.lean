import WireLayout.Proofs.Reading

/-!
# Runs that may be given up

A step approximates another one when it gives up or does the same. A run with less depth approximates a run with more, in either
direction (`unpack_approximates_of_le`, `pack_approximates_of_le`), so the depth that a registry allows decides whether there is a
result, and never which one. Reading that gives up at certain schemas approximates reading that goes on
(`unpackAdmitting_approximates`), so it can tell whether a run ever meets one of them.
-/

namespace WireLayout

namespace Walk

variable {μ α β : Type} {step step' : Walk μ α}

/-- The first step gives up, or does the same as the second. -/
def Approximates (step step' : Walk μ α) : Prop := ∀ s, step s = .error .exhausted ∨ step s = step' s

namespace Approximates

theorem refl (step : Walk μ α) : Approximates step step := fun _ => Or.inr rfl

theorem giveUp (step : Walk μ α) : Approximates Walk.giveUp step := fun _ => Or.inl rfl

/-- A run that is not given up has the same result on the other side. -/
theorem eq_ok (h : Approximates step step') {s : WalkState μ} {result : α × WalkState μ} (hs : step s = .ok result) :
    step' s = .ok result := by
  rcases h s with hx | hx
  · rw [hs] at hx
    cases hx
  · rw [← hx]
    exact hs

/-- So has a run that fails. -/
theorem eq_fault (h : Approximates step step') {s : WalkState μ} {fault : Fault} (hs : step s = .error (.fault fault)) :
    step' s = .error (.fault fault) := by
  rcases h s with hx | hx
  · rw [hs] at hx
    cases hx
  · rw [← hx]
    exact hs

theorem bind {next next' : α → Walk μ β} (h : Approximates step step') (hnext : ∀ a, Approximates (next a) (next' a)) :
    Approximates (step >>= next) (step' >>= next') := by
  intro s
  rw [bind_apply, bind_apply]
  rcases h s with hs | hs
  · rw [hs]
    exact Or.inl rfl
  · rw [← hs]
    cases step s with
    | error stop => exact Or.inr rfl
    | ok p => exact hnext p.1 p.2

theorem within (scope : Scope) (h : Approximates step step') :
    Approximates (Walk.within scope step) (Walk.within scope step') := by
  intro s
  simp only [Walk.within]
  rcases h ⟨s.medium, some scope⟩ with hs | hs
  · rw [hs]
    exact Or.inl rfl
  · rw [← hs]
    exact Or.inr rfl

theorem aside (other : μ) (h : Approximates step step') : Approximates (Walk.aside other step) (Walk.aside other step') := by
  intro s
  simp only [Walk.aside]
  rcases h ⟨other, s.scope⟩ with hs | hs
  · rw [hs]
    exact Or.inl rfl
  · rw [← hs]
    exact Or.inr rfl

end Approximates

end Walk

namespace Codec

open Walk

variable {Γ : Context} {run run' : Schema → Unpacking Value}

section Reading

variable (hrun : ∀ schema, Approximates (run schema) (run' schema))

include hrun

theorem candidate_approximates (c : Candidate) :
    Approximates (Unpacking.candidate Γ run c) (Unpacking.candidate Γ run' c) :=
  (Approximates.refl _).bind hrun

theorem times_approximates (schema : Schema) (count : Nat) (done : List Value) :
    Approximates (Elements.times (run schema) count done) (Elements.times (run' schema) count done) := by
  induction count generalizing done with
  | zero => exact Approximates.refl _
  | succ count ih =>
    rw [Elements.times_succ, Elements.times_succ]
    exact (hrun schema).bind fun v => ih (v :: done)

theorem untilEnd_approximates (schema : Schema) (rounds : Nat) (done : List Value) :
    Approximates (Elements.untilEnd (run schema) rounds done) (Elements.untilEnd (run' schema) rounds done) := by
  induction rounds generalizing done with
  | zero => exact Approximates.refl _
  | succ rounds ih =>
    intro s
    simp only [Elements.untilEnd]
    split
    · exact Or.inr rfl
    · rcases hrun schema s with hs | hs
      · rw [hs]
        exact Or.inl rfl
      · rw [← hs]
        cases run schema s with
        | error stop => exact Or.inr rfl
        | ok p =>
          dsimp only
          split
          · exact Or.inr rfl
          · exact ih (p.1 :: done) p.2

theorem elements_approximates (item : Candidate) (count : Option Nat) :
    Approximates (Elements.unpack Γ run item count) (Elements.unpack Γ run' item count) := by
  refine (Approximates.refl _).bind ?_
  intro schema
  split
  · exact Approximates.refl _
  · cases count with
    | some n => exact (times_approximates hrun _ n []).bind fun _ => Approximates.refl _
    | none =>
      refine (Approximates.refl _).bind ?_
      intro c
      exact (untilEnd_approximates hrun _ _ []).bind fun _ => Approximates.refl _

omit hrun in
theorem fields_approximates {readField readField' : Candidate → Unpacking Value}
    (hread : ∀ c, Approximates (readField c) (readField' c)) (entries : Keyed Candidate) (scope : Scope) :
    Approximates (Body.unpackFields readField entries scope) (Body.unpackFields readField' entries scope) := by
  induction entries generalizing scope with
  | nil => exact Approximates.refl _
  | cons entry rest ih =>
    obtain ⟨key, c⟩ := entry
    rw [Body.unpackFields, Body.unpackFields]
    split
    · exact ih _
    · exact (Approximates.within scope (hread c)).bind fun _ => ih _

theorem extension_approximates (reader : Reader) :
    Approximates (Extension.unpack Γ run reader) (Extension.unpack Γ run' reader) := by
  induction reader using Extension.unpack.induct with
  | case1 v => exact Approximates.refl _
  | case2 fault => exact Approximates.refl _
  | case3 n next ih => exact (Approximates.refl _).bind ih
  | case4 position next ih => exact (Approximates.refl _).bind fun _ => ih
  | case5 next ih => exact (Approximates.refl _).bind ih
  | case6 candidate next ih => exact (candidate_approximates hrun candidate).bind ih
  | case7 kind next ih => exact (Approximates.refl _).bind fun _ => ih

/-- The step of a schema approximates as far as the steps of what runs inside do. -/
theorem unpackStep_approximates (schema : Schema) :
    Approximates (unpackStep Γ run schema) (unpackStep Γ run' schema) := by
  cases schema with
  | array item count => exact (Approximates.refl _).bind fun n => elements_approximates hrun item n
  | object layout =>
    exact (fields_approximates (candidate_approximates hrun) _ _).bind fun _ => Approximates.refl _
  | union layout size =>
    refine (Approximates.refl _).bind ?_
    intro window
    refine (fields_approximates (fun c => ?_) _ _).bind fun _ => Approximates.refl _
    exact (Approximates.aside _ (candidate_approximates hrun c)).bind fun _ => Approximates.refl _
  | depend field selector =>
    exact (Approximates.refl _).bind fun v => (Approximates.refl _).bind fun c => candidate_approximates hrun c
  | link field item =>
    exact (Approximates.refl _).bind fun v => (Approximates.refl _).bind fun n => elements_approximates hrun item (some n)
  | parse encode decode inner size =>
    refine (Approximates.refl _).bind fun raw => (Approximates.refl _).bind fun decoded => ?_
    exact (Approximates.aside _ (candidate_approximates hrun inner)).bind fun _ => Approximates.refl _
  | custom extension => exact extension_approximates hrun extension.read
  | number _ | string _ | cstring _ | enums _ _ | computed _ _ | exit => exact Approximates.refl _

end Reading

section Writing

variable {write write' : Schema → Value → Packing Unit} (hwrite : ∀ schema v, Approximates (write schema v) (write' schema v))

theorem collect_approximates {step step' : Packing Unit} (h : Approximates step step') :
    Approximates (Packing.collect step) (Packing.collect step') :=
  (Approximates.aside #[] h).bind fun _ => Approximates.refl _

theorem packFields_approximates {writeField writeField' : Candidate → Value → Packing Unit}
    (hfield : ∀ c v, Approximates (writeField c v) (writeField' c v)) (v : Value) (entries : Keyed Candidate) (scope : Scope) :
    Approximates (Body.packFields writeField v entries scope) (Body.packFields writeField' v entries scope) := by
  induction entries generalizing scope with
  | nil => exact Approximates.refl _
  | cons entry rest ih =>
    obtain ⟨key, c⟩ := entry
    rw [Body.packFields, Body.packFields]
    split
    · exact Approximates.refl _
    · exact (Approximates.refl _).bind fun start => (Approximates.within _ (hfield c _)).bind fun _ => ih _

theorem overlayFields_approximates {writeField writeField' : Candidate → Value → Packing Unit}
    (hfield : ∀ c v, Approximates (writeField c v) (writeField' c v)) (v : Value) (entries : Keyed Candidate) (scope : Scope)
    (region : Bytes) :
    Approximates (Body.overlayFields writeField v entries scope region)
      (Body.overlayFields writeField' v entries scope region) := by
  induction entries generalizing scope region with
  | nil => exact Approximates.refl _
  | cons entry rest ih =>
    obtain ⟨key, c⟩ := entry
    rw [Body.overlayFields, Body.overlayFields]
    split
    · exact Approximates.refl _
    · split
      · exact ih _ _
      · exact (Approximates.within _ (collect_approximates (hfield c _))).bind fun _ => ih _ _

include hwrite

theorem packCandidate_approximates (c : Candidate) (v : Value) :
    Approximates (Packing.candidate Γ write c v) (Packing.candidate Γ write' c v) :=
  (Approximates.refl _).bind fun schema => hwrite schema v

theorem packEach_approximates (schema : Schema) (count : Nat) (items : List Value) :
    Approximates (Elements.packEach (write schema) count items) (Elements.packEach (write' schema) count items) := by
  induction count generalizing items with
  | zero => exact Approximates.refl _
  | succ count ih =>
    rw [Elements.packEach_succ, Elements.packEach_succ]
    exact (hwrite schema _).bind fun _ => ih _

theorem packElements_approximates (item : Candidate) (items : List Value) (count : Nat) :
    Approximates (Elements.pack Γ write item items count) (Elements.pack Γ write' item items count) := by
  refine (Approximates.refl _).bind ?_
  intro schema
  split
  · exact Approximates.refl _
  · exact packEach_approximates hwrite _ count items

theorem countBytes_approximates (counter : Candidate) (n : Nat) :
    Approximates (Sibling.countBytes Γ write counter n) (Sibling.countBytes Γ write' counter n) := by
  refine (Approximates.refl _).bind ?_
  intro schema
  split
  · exact Approximates.refl _
  · exact collect_approximates (hwrite _ _)

theorem packLink_approximates (field : String) (item : Candidate) (v : Value) :
    Approximates (Sibling.packLink Γ write field item v) (Sibling.packLink Γ write' field item v) := by
  refine (Approximates.refl _).bind fun items => (Approximates.refl _).bind fun scope => ?_
  cases scope.fieldSchema? field with
  | none => exact Approximates.refl _
  | some counter =>
    cases scope.offset? field with
    | none => exact Approximates.refl _
    | some offset =>
      refine (countBytes_approximates hwrite counter _).bind fun count => (Approximates.refl _).bind fun _ => ?_
      exact packElements_approximates hwrite item items _

theorem packExtension_approximates (writer : Writer) :
    Approximates (Extension.pack Γ write writer) (Extension.pack Γ write' writer) := by
  induction writer using Extension.pack.induct with
  | case1 => exact Approximates.refl _
  | case2 fault => exact Approximates.refl _
  | case3 bytes next ih => exact (Approximates.refl _).bind fun _ => ih
  | case4 next ih => exact (Approximates.refl _).bind ih
  | case5 candidate v next ih => exact (packCandidate_approximates hwrite candidate v).bind fun _ => ih
  | case6 kind next ih => exact (Approximates.refl _).bind fun _ => ih

/-- Writing a schema approximates as far as writing what is inside does. -/
theorem packStep_approximates (schema : Schema) (v : Value) :
    Approximates (packStep Γ write schema v) (packStep Γ write' schema v) := by
  cases schema with
  | array item count =>
    refine (Approximates.refl _).bind fun items => (Approximates.refl _).bind fun _ => ?_
    exact packElements_approximates hwrite item items _
  | object layout =>
    exact (Approximates.refl _).bind fun _ => packFields_approximates (packCandidate_approximates hwrite) v _ _
  | union layout size =>
    refine (Approximates.refl _).bind ?_
    intro _
    exact (overlayFields_approximates (packCandidate_approximates hwrite) v _ _ _).bind fun _ => Approximates.refl _
  | depend field selector =>
    refine (Approximates.refl _).bind fun dependent => (Approximates.refl _).bind fun c => ?_
    exact packCandidate_approximates hwrite c v
  | link field item => exact packLink_approximates hwrite field item v
  | parse encode decode inner size =>
    refine (collect_approximates (packCandidate_approximates hwrite inner v)).bind ?_
    intro plain
    exact (Approximates.refl _).bind fun _ => Approximates.refl _
  | custom extension => exact packExtension_approximates hwrite (extension.write v)
  | number _ | string _ | cstring _ | enums _ _ | computed _ _ | exit => exact Approximates.refl _

end Writing

/-- A run that ends within a depth ends the same way within any larger one. -/
theorem unpack_approximates_of_le {depth depth' : Nat} (h : depth ≤ depth') (schema : Schema) :
    Approximates (unpack Γ depth schema) (unpack Γ depth' schema) := by
  induction depth generalizing depth' schema with
  | zero => exact Approximates.giveUp _
  | succ depth ih =>
    cases depth' with
    | zero => exact absurd h (Nat.not_succ_le_zero depth)
    | succ depth' => exact unpackStep_approximates (fun inner => ih (Nat.le_of_succ_le_succ h) inner) schema

/-- So does a run that writes. -/
theorem pack_approximates_of_le {depth depth' : Nat} (h : depth ≤ depth') (schema : Schema) (v : Value) :
    Approximates (pack Γ depth schema v) (pack Γ depth' schema v) := by
  induction depth generalizing depth' schema v with
  | zero => exact Approximates.giveUp _
  | succ depth ih =>
    cases depth' with
    | zero => exact absurd h (Nat.not_succ_le_zero depth)
    | succ depth' => exact packStep_approximates (fun inner w => ih (Nat.le_of_succ_le_succ h) inner w) schema v

/-! ## Reading that gives up at certain schemas -/

/-- Reads like `unpack`, but gives up where it meets a schema that is not admitted. What runs over an input of its own, in the window
of a union or in a transformed region, is not looked at. -/
def unpackAdmitting (Γ : Context) (admits : Schema → Bool) : (depth : Nat) → Schema → Unpacking Value
  | 0, _ => Walk.giveUp
  | depth + 1, schema =>
    if admits schema then
      unpackStep Γ (if schema.opensInput then unpack Γ depth else unpackAdmitting Γ admits depth) schema
    else Walk.giveUp

/-- Reading that gives up at certain schemas does else what reading does. -/
theorem unpackAdmitting_approximates (admits : Schema → Bool) (depth : Nat) (schema : Schema) :
    Approximates (unpackAdmitting Γ admits depth schema) (unpack Γ depth schema) := by
  induction depth generalizing schema with
  | zero => exact Approximates.giveUp _
  | succ depth ih =>
    rw [unpackAdmitting]
    split
    · refine unpackStep_approximates ?_ schema
      intro inner
      split
      · exact Approximates.refl _
      · exact ih inner
    · exact Approximates.giveUp _

/-- Every schema that a run meets is admitted: reading that gives up at all others is not given up. What runs over an input of its
own may be any schema. -/
def MeetsOnly (Γ : Context) (admits : Schema → Bool) (depth : Nat) (schema : Schema) (s : WalkState Cursor) : Prop :=
  unpackAdmitting Γ admits depth schema s = unpack Γ depth schema s

end Codec

end WireLayout
