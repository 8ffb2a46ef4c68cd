import WireLayout.Proofs.Leaving
import WireLayout.Proofs.Parts

/-!
# The faults of reading

Which faults a step can end in, by what the body around shows of its fields (`Walk.FaultsIn`). A step may leave that body and do
nothing else to it, so what the body shows is the same for every step of a sequence. Taking bytes, decoding them, and taking a value
for a count end in faults of the data only; what else can fail is asked for where it runs.
-/

namespace WireLayout

namespace Walk

variable {μ α β : Type}

/-- In a body that shows these fields, the step ends in no other faults than these. -/
def FaultsIn (found : String → Option Value) (Q : Fault → Prop) (step : Walk μ α) : Prop :=
  ∀ medium scope fault, scope.field? = found → step ⟨medium, some scope⟩ = .error (.fault fault) → Q fault

variable {found : String → Option Value} {Q R : Fault → Prop} {Γ : Context}

theorem FaultsIn.imp {step : Walk μ α} (h : FaultsIn found Q step) (himp : ∀ fault, Q fault → R fault) : FaultsIn found R step :=
  fun medium scope fault hfound hstep => himp fault (h medium scope fault hfound hstep)

theorem FaultsIn.bind {step : Walk μ α} {next : α → Walk μ β} (h : FaultsIn found Q step) (leaves : Leaves step)
    (hnext : ∀ a, FaultsIn found Q (next a)) : FaultsIn found Q (step >>= next) := by
  intro medium scope fault hfound hstep
  rw [bind_apply] at hstep
  cases first : step ⟨medium, some scope⟩ with
  | error stop =>
    rw [first] at hstep
    cases hstep
    exact h medium scope fault hfound first
  | ok result =>
    obtain ⟨a, medium₁, scope₁⟩ := result
    obtain ⟨fires, rfl⟩ := leaves _ _ _ first
    rw [first] at hstep
    exact hnext a medium₁ (scope.leave fires) fault hfound hstep

theorem FaultsIn.pure (a : α) : FaultsIn found Q (Pure.pure a : Walk μ α) := fun _ _ _ _ hstep => nomatch hstep

theorem FaultsIn.fail {fault : Fault} (h : Q fault) : FaultsIn found Q (Walk.fail fault : Walk μ α) := by
  rintro _ _ _ - ⟨⟩
  exact h

theorem FaultsIn.giveUp : FaultsIn found Q (Walk.giveUp : Walk μ α) := by
  rintro _ _ _ - ⟨⟩

theorem FaultsIn.ofExcept {result : Except Fault α} (h : ∀ fault, result = .error fault → Q fault) :
    FaultsIn found Q (Walk.ofExcept result : Walk μ α) := by
  cases result with
  | ok a => exact .pure a
  | error fault => exact .fail (h fault rfl)

theorem FaultsIn.onMedium {f : μ → Except Fault (α × μ)} (h : ∀ medium fault, f medium = .error fault → Q fault) :
    FaultsIn found Q (Walk.onMedium f) := by
  intro medium scope fault _ hstep
  simp only [Walk.onMedium] at hstep
  split at hstep
  · cases hstep
  · next cause hf =>
    cases hstep
    exact h medium fault hf

/-- A sibling that the body does not show is undefined; any other has the value that is shown. -/
theorem FaultsIn.sibling {kind field : String} {next : Value → Walk μ β} (undefined : Q (.undefinedDependency field))
    (hnext : ∀ v, found field = some v → FaultsIn found Q (next v)) : FaultsIn found Q (Walk.sibling kind field >>= next) := by
  rintro medium scope fault rfl hstep
  rw [bind_apply, sibling_eq_onScope] at hstep
  simp only [onScope] at hstep
  cases shown : scope.field? field with
  | none =>
    rw [shown] at hstep
    cases hstep
    exact undefined
  | some v =>
    rw [shown] at hstep
    exact hnext v shown medium scope fault rfl hstep

end Walk

namespace Count

/-- A count in front is a number. -/
def IsNumeric (r : Registry) : Count → Prop
  | prefixed number => ∃ kind, r.resolve number = .ok (.number kind)
  | _ => True

end Count

namespace Unpacking

open Walk

variable {found : String → Option Value} {Q : Fault → Prop} {Γ : Context}

theorem faults_times {step : Unpacking Value} (h : FaultsIn found Q step) (leaves : Leaves step) (count : Nat) (done : List Value) :
    FaultsIn found Q (Elements.times step count done) := by
  induction count generalizing done with
  | zero => exact .pure _
  | succ count ih =>
    rw [Elements.times_succ]
    exact h.bind leaves fun v => ih (v :: done)

theorem faults_untilEnd {step : Unpacking Value} (h : FaultsIn found Q step) (leaves : Leaves step) (rounds : Nat) (done : List Value) :
    FaultsIn found Q (Elements.untilEnd step rounds done) := by
  induction rounds generalizing done with
  | zero => exact .giveUp
  | succ rounds ih =>
    intro medium scope fault hfound hstep
    simp only [Elements.untilEnd] at hstep
    split at hstep
    · cases hstep
    · split at hstep
      · next v s₁ hv =>
        obtain ⟨medium₁, scope₁⟩ := s₁
        obtain ⟨fires, rfl⟩ := leaves _ _ _ hv
        split at hstep
        · cases hstep
        · exact ih (v :: done) medium₁ (scope.leave fires) fault hfound hstep
      · next stop hv =>
        cases hstep
        exact h medium scope fault hfound hv

theorem faults_medium : FaultsIn found Q (Walk.medium : Unpacking Cursor) := fun _ _ _ _ hstep => nomatch hstep

section

variable (hdata : ∀ fault, fault.kind = .data → Q fault)

include hdata

theorem faults_take (n : Nat) : FaultsIn found Q (take n) := by
  refine .onMedium fun cursor fault htake => hdata fault ?_
  simp only [Cursor.take, Bytes.slice] at htake
  split at htake
  · cases htake
  · cases htake
    rfl

theorem faults_number (kind : Number) : FaultsIn found Q (number Γ kind) := by
  rw [number_eq]
  exact (faults_take hdata _).bind (.onMedium _) fun _ => .pure _

theorem faults_ofCount (v : Value) : FaultsIn found Q (Count.ofValue v) := by
  unfold Count.ofValue
  split
  · exact .pure _
  · exact .fail (hdata _ rfl)

theorem faults_count {count : Count} (numeric : count.IsNumeric Γ.registry) : FaultsIn found Q (count.unpack Γ) := by
  cases count with
  | fixed n => exact .pure _
  | auto => exact .pure _
  | prefixed c =>
    obtain ⟨kind, hc⟩ := numeric
    rw [Count.unpack, resolveNumber_eq_pure hc, pure_bind]
    refine (faults_number hdata kind).bind (.onMedium _) fun v => ?_
    exact (faults_ofCount hdata v).bind (Count.scopeless_ofValue v).moves fun n => .pure _

theorem faults_region {size : Count} (numeric : size.IsNumeric Γ.registry) : FaultsIn found Q (Region.unpack Γ size) := by
  refine (faults_count hdata numeric).bind (composable_moves.count size) fun n => ?_
  cases n with
  | some n => exact faults_take hdata n
  | none => exact faults_medium.bind Scopeless.medium.moves fun cursor => faults_take hdata _

theorem faults_text {size : Count} (numeric : size.IsNumeric Γ.registry) : FaultsIn found Q (Text.unpack Γ size) := by
  refine (faults_region hdata numeric).bind (composable_moves.region fun _ => openEnded_moves) fun raw => ?_
  refine FaultsIn.bind (.ofExcept fun fault hdecode => hdata fault ?_) (.ofExcept _) fun text => .pure _
  unfold Encoding.decode at hdecode
  split at hdecode
  · cases hdecode
  · cases hdecode
    rfl

theorem faults_numbers (kind : Number) (count : Option Nat) : FaultsIn found Q (Elements.unpackNumbers Γ kind count) := by
  have counted : ∀ n, FaultsIn found Q (Elements.unpackNumbers Γ kind (some n)) := by
    intro n
    rw [Elements.unpackNumbers_some]
    split
    · exact (faults_take hdata _).bind (.onMedium _) fun block => .pure _
    · exact faults_times (faults_number hdata kind) (.onMedium _) n []
  cases count with
  | some n => exact counted n
  | none =>
    rw [Elements.unpackNumbers_none]
    have leaves : Leaves remaining := Scopeless.medium.moves.bind fun cursor => .pure _
    have faults : FaultsIn found Q remaining := faults_medium.bind Scopeless.medium.moves fun cursor => .pure _
    exact faults.bind leaves fun left => counted _

/-- Elements end in the faults of one element, and of the data. -/
theorem faults_elements {run : Schema → Unpacking Value} {item : Candidate} {schema : Schema}
    (hitem : Γ.registry.resolve item = .ok schema) (hrun : FaultsIn found Q (run schema)) (leaves : Leaves (run schema))
    (count : Option Nat) :
    FaultsIn found Q (Elements.unpack Γ run item count) := by
  rw [Elements.unpack, resolve_bind_ok hitem]
  split
  · next kind => exact (faults_numbers hdata kind count).bind (.onMedium _) fun _ => .pure _
  · split
    · next n => exact (faults_times hrun leaves n []).bind (composable_moves.times leaves n []) fun _ => .pure _
    · refine faults_medium.bind Scopeless.medium.moves fun cursor => ?_
      exact (faults_untilEnd hrun leaves _ []).bind (Elements.moves_untilEnd leaves _ []) fun _ => .pure _

end

end Unpacking

/-- When fields cannot be read, it is because of the first one that cannot be, in the body as it is then. -/
theorem Body.unpackFields_eq_error {run : Candidate → Unpacking Value} {fields : Keyed Candidate} {scope : Scope}
    {s : WalkState Cursor} {stop : Stop} (h : unpackFields run fields scope s = .error stop) :
    ∃ before key c after scope' s', fields = before ++ (key, c) :: after ∧ unpackFields run before scope s = .ok (scope', s') ∧
      scope'.isExited = false ∧ run c ⟨s'.medium, some scope'⟩ = .error stop := by
  induction fields generalizing scope s with
  | nil => cases h
  | cons field rest ih =>
    obtain ⟨key, c⟩ := field
    cases hexit : scope.isExited with
    | true =>
      have goesOn : ∀ before, unpackFields run ((key, c) :: before) scope s = unpackFields run before (scope.push key .null) s :=
        fun before => by rw [unpackFields, if_pos hexit]
      obtain ⟨before, key', c', after, scope', s', split, hread, hopen, hfail⟩ := ih ((goesOn rest).symm.trans h)
      exact ⟨(key, c) :: before, key', c', after, scope', s', congrArg _ split, (goesOn before).trans hread, hopen, hfail⟩
    | false =>
      cases hfield : run c ⟨s.medium, some scope⟩ with
      | error cause =>
        rw [unpackFields, hexit, if_neg Bool.false_ne_true, Walk.bind_apply] at h
        simp only [Walk.within, hfield] at h
        cases h
        exact ⟨[], key, c, rest, scope, s, rfl, rfl, hexit, hfield⟩
      | ok result =>
        obtain ⟨v, medium₁, inner⟩ := result
        have goesOn : ∀ before, unpackFields run ((key, c) :: before) scope s =
            unpackFields run before ((inner.getD scope).push key v) ⟨medium₁, s.scope⟩ := by
          intro before
          rw [unpackFields, hexit, if_neg Bool.false_ne_true, Walk.bind_apply]
          simp only [Walk.within, hfield]
        obtain ⟨before, key', c', after, scope', s', split, hread, hopen, hfail⟩ := ih ((goesOn rest).symm.trans h)
        exact ⟨(key, c) :: before, key', c', after, scope', s', congrArg _ split, (goesOn before).trans hread, hopen, hfail⟩

namespace Registry

/-- What does not resolve is reported as unregistered. -/
theorem resolveFrom_eq_fault {r : Registry} {identifier : String} {replacements : Nat} {c : Candidate} {seen : List String}
    {last : Option Nat} {fault : Fault} (h : r.resolveFrom identifier replacements c seen last = .error (.fault fault)) :
    fault = .unregisteredSchema identifier := by
  induction replacements generalizing c seen last with
  | zero => cases h
  | succ replacements ih =>
    rw [resolveFrom] at h
    split at h
    · cases h
      rfl
    · cases h
    · split at h
      · cases h
        rfl
      · exact ih h

theorem resolve_eq_fault {r : Registry} {c : Candidate} {fault : Fault} (h : r.resolve c = .error (.fault fault)) :
    fault = .unregisteredSchema c.identifier := by
  cases c with
  | schema schema => cases h
  | name n => exact resolveFrom_eq_fault h
  | fields layout => exact resolveFrom_eq_fault h

end Registry

end WireLayout
