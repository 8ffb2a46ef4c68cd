import WireLayout.Proofs.Tandem

/-!
# Bodies that look alike

What runs in a body can ask it for little: a dependent field for the value of a sibling, a linked array for the same, or for the schema and
the place of a sibling when it is written. So a schema does the same in two bodies that answer alike for the fields that it names
(`pack_sameIn`, `unpack_sameIn`), whatever tells the bodies apart besides: their layouts, their values, the places of other fields.
-/

namespace WireLayout

/-- Of the body around, this schema asks for fields of these names only. A user-defined kind may ask for anything. -/
def Site.Looks (names : String → Prop) (site : Site) : Prop :=
  match site.schema with
  | .depend field _ | .link field _ => names field
  | .custom _ => False
  | _ => True

namespace Scope

/-- The schema and the place of a sibling field, if the layout has it and it was started. -/
def counter? (s : Scope) (field : String) : Option (Candidate × Nat) :=
  match s.fieldSchema? field, s.offset? field with
  | some counter, some offset => some (counter, offset)
  | _, _ => none

/-- Two bodies answer alike for the fields of these names. -/
structure Alike (names : String → Prop) (s t : Scope) : Prop where
  field? : ∀ name, names name → t.field? name = s.field? name
  counter? : ∀ name, names name → t.counter? name = s.counter? name

theorem exit_leave (s : Scope) (fires : Bool) : (s.leave fires).exit = s.leave true := by
  simp [leave, exit]

end Scope

/-! ## Steps that do the same in either body -/

theorem Both.of_eq {ρ : Type} {a b : Except Stop ρ} (h : a = b) : Both Eq a b := by
  subst h
  cases a with
  | error stop => exact .stop stop
  | ok a => exact .ok rfl

/-- What two runs of a step lead to: the same value, the same medium, and each body left or not. -/
structure SameEnd {μ α : Type} (s t : Scope) (a b : α × WalkState μ) : Prop where
  value : b.1 = a.1
  medium : b.2.medium = a.2.medium
  leaves : ∃ fires, a.2.scope = some (s.leave fires) ∧ b.2.scope = some (t.leave fires)

namespace Walk

variable {μ α β : Type} {Γ : Context} {s t : Scope}

/-- A step does the same in either body, whether the body was left or not. -/
def SameIn (s t : Scope) (step : Walk μ α) : Prop :=
  ∀ medium fires, Both (SameEnd s t) (step ⟨medium, some (s.leave fires)⟩) (step ⟨medium, some (t.leave fires)⟩)

namespace SameIn

theorem bind {step : Walk μ α} {next : α → Walk μ β} (h : SameIn s t step) (hnext : ∀ a, SameIn s t (next a)) :
    SameIn s t (step >>= next) := by
  intro medium fires
  refine Walk.both_bind (h medium fires) ?_
  rintro ⟨a, medium₁, scope₁⟩ ⟨b, medium₂, scope₂⟩ - ends
  obtain rfl : b = a := ends.value
  obtain rfl : medium₂ = medium₁ := ends.medium
  obtain ⟨fires', rfl, rfl⟩ := ends.leaves
  exact hnext b medium₂ fires'

theorem scopeless {step : Walk μ α} (h : Scopeless step) : SameIn s t step := by
  intro medium fires
  rw [h medium (some (s.leave fires)), h medium (some (t.leave fires))]
  cases step ⟨medium, none⟩ with
  | error stop => exact .stop stop
  | ok result => exact .ok ⟨rfl, rfl, fires, rfl, rfl⟩

theorem pure (a : α) : SameIn s t (Pure.pure a : Walk μ α) := scopeless (.pure a)

theorem stop (stop : Stop) : SameIn s t (fun _ => .error stop : Walk μ α) := scopeless (.stop stop)

theorem exitScope (kind : String) : SameIn s t (Walk.exitScope kind : Walk μ Unit) :=
  fun _ fires => .ok ⟨rfl, rfl, true, congrArg some (s.exit_leave fires), congrArg some (t.exit_leave fires)⟩

/-- Behind a computation, what comes matters only for its result. -/
theorem ofExcept {result : Except Fault α} {next : α → Walk μ β} (hnext : ∀ a, result = .ok a → SameIn s t (next a)) :
    SameIn s t (Walk.ofExcept result >>= next) := by
  cases result with
  | ok a => exact hnext a rfl
  | error fault => exact stop _

theorem resolve {c : Candidate} {next : Schema → Walk μ α}
    (hnext : ∀ schema, Γ.registry.resolve c = .ok schema → SameIn s t (next schema)) : SameIn s t (Walk.resolve Γ c >>= next) := by
  cases hc : Γ.registry.resolve c with
  | ok schema =>
    rw [Walk.resolve_bind_ok hc]
    exact hnext schema hc
  | error stop =>
    rw [Walk.resolve_bind_error hc]
    exact SameIn.stop stop

/-- Behind a sibling field that is the same in either body, what comes matters only for its value. -/
theorem sibling {kind field : String} {next : Value → Walk μ α} (same : t.field? field = s.field? field)
    (hnext : ∀ v, s.value.get? field = some v → SameIn s t (next v)) : SameIn s t (Walk.sibling kind field >>= next) := by
  intro medium fires
  have left : (s.leave fires).field? field = s.field? field := rfl
  have right : (t.leave fires).field? field = s.field? field := same
  rw [Walk.bind_apply, Walk.bind_apply, Walk.sibling_eq_onScope]
  simp only [Walk.onScope, left, right]
  cases found : s.field? field with
  | none => exact .stop _
  | some v => exact hnext v found medium fires

theorem aside {step : Walk μ α} (h : SameIn s t step) (other : μ) : SameIn s t (Walk.aside other step) := by
  intro medium fires
  have apart := h other fires
  simp only [Walk.aside]
  generalize step ⟨other, some (s.leave fires)⟩ = first at apart
  generalize step ⟨other, some (t.leave fires)⟩ = second at apart
  cases apart with
  | stop stop => exact .stop stop
  | ok ends => exact .ok ⟨Prod.ext ends.value ends.medium, rfl, ends.leaves⟩

/-- A step inside the bodies gives them back left or not, and what is around them as it was. -/
theorem within {step : Walk μ α} (h : SameIn s t step) (medium : μ) (around around' : Option Scope) :
    Both (fun a b => b.1.1 = a.1.1 ∧ (∃ fires, a.1.2 = s.leave fires ∧ b.1.2 = t.leave fires) ∧ b.2.medium = a.2.medium ∧
        a.2.scope = around ∧ b.2.scope = around')
      (Walk.within s step ⟨medium, around⟩) (Walk.within t step ⟨medium, around'⟩) := by
  have inside := h medium false
  rw [s.leave_false, t.leave_false] at inside
  simp only [Walk.within]
  generalize step ⟨medium, some s⟩ = first at inside
  generalize step ⟨medium, some t⟩ = second at inside
  cases inside with
  | stop stop => exact .stop stop
  | @ok a b ends =>
    obtain ⟨a, medium₁, scope₁⟩ := a
    obtain ⟨b, medium₂, scope₂⟩ := b
    obtain ⟨fires, rfl, rfl⟩ := ends.leaves
    exact .ok ⟨ends.value, ⟨fires, rfl, rfl⟩, ends.medium, rfl, rfl⟩

end SameIn

end Walk

open Walk

variable {Γ : Context} {s t : Scope}

/-! ## Writing -/

namespace Packing

variable {run : Schema → Value → Packing Unit}

theorem compositional_sameIn : Compositional fun _ step => SameIn s t step where
  bind hstep hnext := hstep.bind hnext
  appends {f} _ := SameIn.scopeless (scopeless_onOutput f)
  exitScope kind := SameIn.exitScope kind
  detached h := SameIn.scopeless h.scopeless

theorem sameIn_collect {step : Packing Unit} (h : SameIn s t step) : SameIn s t (collect step) :=
  (h.aside #[]).bind fun _ => SameIn.pure _

/-- A linked array asks for the schema and the place of the field that stores its count. -/
theorem packLink_counter (field : String) (item : Candidate) (v : Value) :
    Sibling.packLink Γ run field item v = (do
      let items ← Elements.ofValue v
      let scope ← Walk.requireScope "link"
      match scope.counter? field with
      | some (counter, offset) => do
        let count ← Sibling.countBytes Γ run counter items.length
        Packing.onOutput fun out => .ok (out.patch offset count)
        Elements.pack Γ run item items items.length
      | none => Walk.fail (.undefinedDependency field)) := by
  rw [Sibling.packLink]
  refine congrArg (Elements.ofValue v >>= ·) (funext fun items => congrArg (Walk.requireScope "link" >>= ·) (funext fun scope => ?_))
  rw [Scope.counter?]
  cases scope.fieldSchema? field <;> cases scope.offset? field <;> rfl

theorem sameIn_link {field : String} {item : Candidate} (same : t.counter? field = s.counter? field)
    (hcount : ∀ counter schema n, s.fieldSchema? field = some counter → Γ.registry.resolve counter = .ok schema →
      SameIn s t (run schema (.ofCount n)))
    (hrun : ∀ schema v, Γ.registry.resolve item = .ok schema → SameIn s t (run schema v)) (v : Value) :
    SameIn s t (Sibling.packLink Γ run field item v) := by
  have h := compositional_sameIn (s := s) (t := t)
  rw [packLink_counter]
  refine (h.elementsOf v).bind fun items medium fires => ?_
  have left : (s.leave fires).counter? field = s.counter? field := rfl
  have right : (t.leave fires).counter? field = s.counter? field := same
  rw [Walk.bind_apply, Walk.bind_apply]
  simp only [Walk.requireScope, left, right]
  cases found : s.counter? field with
  | none => exact .stop _
  | some place =>
    obtain ⟨counter, offset⟩ := place
    have inLayout : s.fieldSchema? field = some counter := by
      rw [Scope.counter?] at found
      split at found <;> cases found
      assumption
    have bytes : SameIn s t (Sibling.countBytes Γ run counter items.length) := by
      refine SameIn.resolve fun schema hschema => ?_
      split
      · exact sameIn_collect (h.appends (Number.written_packCount _ _ _))
      · exact sameIn_collect (hcount counter _ _ inLayout hschema)
    exact bytes.bind (fun count => (SameIn.scopeless (scopeless_onOutput _)).bind fun _ => h.elements hrun items _) medium fires

end Packing

/-! ## Reading -/

theorem Walk.Scopeless.resolve {μ : Type} (c : Candidate) : Scopeless (Walk.resolve Γ c : Walk μ Schema) := by
  intro medium scope
  simp only [Walk.resolve]
  cases Γ.registry.resolve c <;> rfl

theorem Walk.Scopeless.resolveNumber {μ : Type} (c : Candidate) (fault : Schema → Fault) :
    Scopeless (Walk.resolveNumber Γ c fault : Walk μ Number) := by
  refine (Scopeless.resolve c).bind fun schema => ?_
  split
  · exact .pure _
  · exact .stop _

theorem Count.scopeless_unpack (count : Count) : Scopeless (count.unpack Γ) := by
  cases count with
  | prefixed c =>
    refine (Scopeless.resolveNumber c _).bind fun kind => (Scopeless.onMedium _).bind fun v => ?_
    exact (Count.scopeless_ofValue v).bind fun n => .pure _
  | fixed _ | auto => exact .pure _

theorem Region.scopeless_unpack (size : Count) : Scopeless (Region.unpack Γ size) := by
  refine size.scopeless_unpack.bind fun n => ?_
  split
  · exact .onMedium _
  · exact Scopeless.medium.bind fun c => .onMedium _

theorem Text.scopeless_unpack (size : Count) : Scopeless (Text.unpack Γ size) :=
  (Region.scopeless_unpack size).bind fun _ => (Scopeless.ofExcept _).bind fun _ => .pure _

theorem Text.scopeless_unpackTerminated (size : Count) : Scopeless (Text.unpackTerminated Γ size) := by
  have decoded : ∀ raw, Scopeless (Unpacking.decode Γ raw >>= fun text => pure (Value.text text) : Unpacking Value) :=
    fun raw => (Scopeless.ofExcept _).bind fun _ => .pure _
  by_cases hauto : size = .auto
  · subst hauto
    exact (Scopeless.onMedium _).bind decoded
  · rw [Text.unpackTerminated_region hauto]
    exact (Region.scopeless_unpack size).bind fun raw => decoded _

theorem Enumeration.scopeless_unpack (names : List (String × Int64)) (base : Candidate) :
    Scopeless (Enumeration.unpack Γ names base) :=
  (Scopeless.resolveNumber base _).bind fun _ => (Scopeless.onMedium _).bind fun _ => .pure _

namespace Unpacking

variable {run : Schema → Unpacking Value}

theorem sameIn_times {step : Unpacking Value} (h : SameIn s t step) (count : Nat) (done : List Value) :
    SameIn s t (Elements.times step count done) := by
  induction count generalizing done with
  | zero => exact SameIn.pure _
  | succ count ih =>
    rw [Elements.times_succ]
    exact h.bind fun v => ih (v :: done)

theorem sameIn_untilEnd {step : Unpacking Value} (h : SameIn s t step) (rounds : Nat) (done : List Value) :
    SameIn s t (Elements.untilEnd step rounds done) := by
  induction rounds generalizing done with
  | zero => exact SameIn.stop _
  | succ rounds ih =>
    intro medium fires
    simp only [Elements.untilEnd]
    split
    · exact .ok ⟨rfl, rfl, fires, rfl, rfl⟩
    · have first := h medium fires
      generalize step ⟨medium, some (s.leave fires)⟩ = left at first
      generalize step ⟨medium, some (t.leave fires)⟩ = right at first
      cases first with
      | stop stop => exact .stop stop
      | @ok a b ends =>
        obtain ⟨v, medium₁, scope₁⟩ := a
        obtain ⟨v', medium₂, scope₂⟩ := b
        obtain rfl : v' = v := ends.value
        obtain rfl : medium₂ = medium₁ := ends.medium
        dsimp only
        split
        · exact .ok ⟨rfl, rfl, ends.leaves⟩
        · obtain ⟨fires', rfl, rfl⟩ := ends.leaves
          exact ih (v' :: done) medium₂ fires'

/-- Elements are read by reading one after another, or as one block of numbers. -/
theorem sameIn_elements {item : Candidate} (hrun : ∀ schema, Γ.registry.resolve item = .ok schema → SameIn s t (run schema))
    (count : Option Nat) : SameIn s t (Elements.unpack Γ run item count) := by
  refine SameIn.resolve fun schema hschema => ?_
  have step := hrun schema hschema
  cases schema with
  | number kind => exact (SameIn.scopeless (.onMedium _)).bind fun _ => SameIn.pure _
  | _ =>
    cases count with
    | some n => exact (sameIn_times step n []).bind fun _ => SameIn.pure _
    | none =>
      exact (SameIn.scopeless .medium).bind fun c => (sameIn_untilEnd step _ []).bind fun _ => SameIn.pure _

end Unpacking

/-! ## Every schema -/

namespace Codec

variable {names : String → Prop}

/-- A schema is written the same in bodies that answer alike for the fields that it names. -/
theorem pack_sameIn (depth : Nat) {site : Site} (alike : s.Alike names t)
    (looks : Site.ThroughoutBody Γ.registry s.value (Site.Looks names) site) (body : site.place.map (·.layout) = some s.layout)
    (v : Value) : SameIn s t (pack Γ depth site.schema v) := by
  have h := Packing.compositional_sameIn (s := s) (t := t)
  induction depth generalizing site v with
  | zero => exact SameIn.stop _
  | succ depth ih =>
    obtain ⟨schema, place, isParsed⟩ := site
    have named := looks.here
    cases schema with
    | number kind => exact h.number kind v
    | array item count => exact h.array (fun schema v hitem => ih (looks.of_runs ⟨rfl, .item hitem⟩) body v) count v
    | string size => exact h.text size v
    | cstring size => exact h.terminatedText size v
    | object layout => exact SameIn.scopeless (Body.scopeless_packObject _ layout v)
    | union layout size => exact h.union _ layout size v
    | enums names base => exact h.enumeration names base v
    | depend field selector =>
      refine SameIn.sibling (alike.field? field named) fun w seen => SameIn.ofExcept fun c selects => ?_
      exact h.candidate fun schema hschema => ih (looks.of_runs ⟨rfl, .selected seen selects hschema⟩) body v
    | link field item =>
      refine Packing.sameIn_link (alike.counter? field named) ?_ ?_ v
      · intro counter schema n found hschema
        obtain ⟨place, rfl, hlayout⟩ := Option.map_eq_some_iff.mp body
        have inPlace : place.layout.get? field = some counter := by
          rw [hlayout]
          exact found
        exact ih (looks.of_runs ⟨rfl, .counter inPlace hschema⟩) body _
      · intro schema v hitem
        exact ih (looks.of_runs ⟨rfl, .linked hitem⟩) body v
    | computed operator w => exact h.pure ()
    | exit => exact h.exitScope "exit"
    | parse encode decode inner size =>
      have content : SameIn s t (Packing.candidate Γ (pack Γ depth) inner v) :=
        h.candidate fun schema hschema => ih (looks.of_runs ⟨rfl, .inner hschema⟩) body v
      exact (Packing.sameIn_collect content).bind fun plain => (h.ofExcept _).bind fun encoded => h.region size encoded
    | custom extension => exact named.elim

/-- So is it read, and then only the values of the fields matter. -/
theorem unpack_sameIn (depth : Nat) {site : Site} (same : ∀ name, names name → t.field? name = s.field? name)
    (looks : Site.ThroughoutBody Γ.registry s.value (Site.Looks names) site) : SameIn s t (unpack Γ depth site.schema) := by
  induction depth generalizing site with
  | zero => exact SameIn.stop _
  | succ depth ih =>
    obtain ⟨schema, place, isParsed⟩ := site
    have named := looks.here
    cases schema with
    | number kind => exact SameIn.scopeless (.onMedium _)
    | array item count =>
      refine (SameIn.scopeless count.scopeless_unpack).bind fun n => Unpacking.sameIn_elements (fun schema hitem => ?_) n
      exact ih (looks.of_runs ⟨rfl, .item hitem⟩)
    | string size => exact SameIn.scopeless (Text.scopeless_unpack size)
    | cstring size => exact SameIn.scopeless (Text.scopeless_unpackTerminated size)
    | object layout => exact SameIn.scopeless (Body.scopeless_unpackObject _ layout)
    | union layout size => exact SameIn.scopeless (Body.scopeless_unpackUnion _ layout size)
    | enums names base => exact SameIn.scopeless (Enumeration.scopeless_unpack names base)
    | depend field selector =>
      refine SameIn.sibling (same field named) fun w seen => SameIn.ofExcept fun c selects => SameIn.resolve fun schema hschema => ?_
      exact ih (looks.of_runs ⟨rfl, .selected seen selects hschema⟩)
    | link field item =>
      refine SameIn.sibling (same field named) fun w seen => (SameIn.scopeless (Count.scopeless_ofValue w)).bind fun n => ?_
      exact Unpacking.sameIn_elements (fun schema hitem => ih (looks.of_runs ⟨rfl, .linked hitem⟩)) (some n)
    | computed operator w => exact SameIn.pure _
    | exit => exact (SameIn.exitScope "exit").bind fun _ => SameIn.pure _
    | parse encode decode inner size =>
      refine (SameIn.scopeless (Region.scopeless_unpack size)).bind fun raw => SameIn.ofExcept fun decoded _ => ?_
      have content : SameIn s t (Unpacking.candidate Γ (unpack Γ depth) inner) :=
        SameIn.resolve fun schema hschema => ih (looks.of_runs ⟨rfl, .inner hschema⟩)
      exact (content.aside _).bind fun _ => SameIn.pure _
    | custom extension => exact named.elim

end Codec

end WireLayout
