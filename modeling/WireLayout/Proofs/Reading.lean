import WireLayout.Proofs.Site

/-!
# What reading is made of

Every step that reads is put together from a few: taking bytes, taking a terminated run, looking at the scope, running in another
scope, running over another input. So a property of steps that these keep (`Compositional`) holds for the step of a schema as soon
as it holds for the steps of what runs inside it (`Compositional.unpackStep`). What neither leaves a body nor enters one, nor turns to
another input, is made of less (`Composable`). Where a count is implied by the end of the input two more steps come in, which look at
how much is left (`OpenEnded`).
-/

namespace WireLayout

namespace Walk

variable {μ α : Type}

/-- A step that looks at the scope, and may change it, but not at the medium. -/
def onScope (f : Option Scope → Except Stop (α × Option Scope)) : Walk μ α := fun ⟨medium, scope⟩ =>
  match f scope with
  | .ok (a, scope) => .ok (a, ⟨medium, scope⟩)
  | .error stop => .error stop

/-- The medium is as before, and the body around is the one given back. -/
theorem onScope_eq_ok {f : Option Scope → Except Stop (α × Option Scope)} {s : WalkState μ} {r : α × WalkState μ} :
    onScope f s = .ok r ↔ ∃ a scope, f s.scope = .ok (a, scope) ∧ r = (a, ⟨s.medium, scope⟩) := by
  rw [onScope]
  cases f s.scope with
  | error stop => simp
  | ok result =>
    constructor
    · intro h
      exact ⟨result.1, result.2, rfl, (Except.ok.inj h).symm⟩
    · rintro ⟨_, _, ⟨⟩, rfl⟩
      rfl

theorem pure_eq_onScope (a : α) : (pure a : Walk μ α) = onScope fun scope => .ok (a, scope) := rfl

theorem fail_eq_onScope (fault : Fault) : (fail fault : Walk μ α) = onScope fun _ => .error (.fault fault) := rfl

theorem giveUp_eq_onScope : (giveUp : Walk μ α) = onScope fun _ => .error .exhausted := rfl

theorem exitScope_eq_onScope (kind : String) :
    (exitScope kind : Walk μ Unit) = onScope fun
      | some scope => .ok ((), some scope.exit)
      | none => .error (.fault (.missingScope kind)) := by
  funext ⟨_, scope⟩
  cases scope <;> rfl

theorem sibling_eq_onScope (kind field : String) :
    (sibling kind field : Walk μ Value) = onScope fun
      | some scope => match scope.field? field with
        | some v => .ok (v, some scope)
        | none => .error (.fault (.undefinedDependency field))
      | none => .error (.fault (.missingScope kind)) := by
  funext ⟨_, scope⟩
  cases scope with
  | none => rfl
  | some scope =>
    simp only [sibling, bind_apply, requireScope, onScope]
    cases scope.field? field <;> rfl

/-- What comes behind the resolution of a candidate goes on with its schema. -/
theorem resolve_bind_ok {Γ : Context} {c : Candidate} {schema : Schema} (h : Γ.registry.resolve c = .ok schema)
    (next : Schema → Walk μ α) : resolve Γ c >>= next = next schema := by
  funext s
  rw [bind_apply, resolve, h]

/-- A candidate that stands for a kind of number is resolved to it, whatever the fault would be. -/
theorem resolveNumber_eq_pure {Γ : Context} {c : Candidate} {kind : Number} (h : Γ.registry.resolve c = .ok (.number kind))
    (fault : Schema → Fault) : (resolveNumber Γ c fault : Walk μ Number) = pure kind := by
  rw [resolveNumber, resolve_bind_ok h]

/-- Nothing comes behind the resolution of a candidate that stands for no schema. -/
theorem resolve_bind_error {Γ : Context} {c : Candidate} {stop : Stop} (h : Γ.registry.resolve c = .error stop)
    (next : Schema → Walk μ α) : resolve Γ c >>= next = onScope fun _ => .error stop := by
  funext s
  rw [bind_apply, resolve, h]
  rfl

end Walk

/-- A candidate is read as the schema that it stands for. -/
theorem Unpacking.candidate_eq {Γ : Context} {c : Candidate} {schema : Schema} (h : Γ.registry.resolve c = .ok schema)
    (run : Schema → Unpacking Value) : candidate Γ run c = run schema := Walk.resolve_bind_ok h run

/-- A candidate is written as the schema that it stands for. -/
theorem Packing.candidate_eq {Γ : Context} {c : Candidate} {schema : Schema} (h : Γ.registry.resolve c = .ok schema)
    (run : Schema → Value → Packing Unit) (v : Value) : candidate Γ run c v = run schema v := Walk.resolve_bind_ok h _

namespace Unpacking

/-- The number of bytes that are not yet read. -/
def remaining : Unpacking Nat := do return (← Walk.medium).remaining

/-- A number is its bytes, decoded. -/
theorem number_eq (Γ : Context) (kind : Number) :
    number Γ kind = take kind.size >>= fun raw => pure (kind.decode Γ.options.byteOrder raw.toList) := by
  funext s
  rw [Walk.bind_apply]
  simp only [number, take, Walk.onMedium, Number.unpack]
  cases s.medium.take kind.size <;> rfl

end Unpacking

/-- The count that stands in front as a number. -/
def Count.prefixed? (Γ : Context) (number : Candidate) : Unpacking Nat := do
  let kind ← Walk.resolveNumber Γ number notNumeric
  let v ← Unpacking.number Γ kind
  ofValue v

/-! ## What a step that succeeded has done -/

section

variable {μ : Type} {Γ : Context}

theorem Walk.resolveNumber_eq_ok {c : Candidate} {fault : Schema → Fault} {s : WalkState μ} {r : Number × WalkState μ} :
    Walk.resolveNumber Γ c fault s = .ok r ↔ Γ.registry.resolve c = .ok (.number r.1) ∧ r.2 = s := by
  rw [resolveNumber]
  cases hc : Γ.registry.resolve c with
  | error stop =>
    rw [resolve_bind_error hc]
    constructor
    · intro h
      cases h
    · rintro ⟨hschema, -⟩
      cases hschema
  | ok schema =>
    rw [resolve_bind_ok hc]
    obtain ⟨kind', s'⟩ := r
    constructor
    · intro h
      split at h
      · cases h
        exact ⟨rfl, rfl⟩
      · cases h
    · rintro ⟨hschema, rfl⟩
      cases hschema
      rfl

theorem Count.ofValue_eq_ok {v : Value} {s : WalkState Cursor} {r : Nat × WalkState Cursor} :
    ofValue v s = .ok r ↔ v.count? = some r.1 ∧ r.2 = s := by
  obtain ⟨n, s'⟩ := r
  unfold ofValue
  cases v.count? with
  | none =>
    constructor
    · intro h
      cases h
    · rintro ⟨hm, -⟩
      cases hm
  | some m =>
    constructor
    · intro h
      cases h
      exact ⟨rfl, rfl⟩
    · rintro ⟨hm, rfl⟩
      cases hm
      rfl

theorem Unpacking.decode_eq_ok {bytes : Bytes} {s : WalkState Cursor} {r : String × WalkState Cursor} :
    decode Γ bytes s = .ok r ↔ Γ.options.encoding.decode? bytes = some r.1 ∧ r.2 = s := by
  obtain ⟨text, s'⟩ := r
  rw [decode, Encoding.decode]
  cases Γ.options.encoding.decode? bytes with
  | none =>
    constructor
    · intro h
      cases h
    · rintro ⟨htext, -⟩
      cases htext
  | some text' =>
    constructor
    · intro h
      cases h
      exact ⟨rfl, rfl⟩
    · rintro ⟨htext, rfl⟩
      cases htext
      rfl

theorem Walk.sibling_eq_ok {kind field : String} {s : WalkState μ} {r : Value × WalkState μ} :
    sibling kind field s = .ok r ↔ ∃ scope, s.scope = some scope ∧ scope.field? field = some r.1 ∧ r.2 = s := by
  obtain ⟨medium, scope⟩ := s
  obtain ⟨v, s'⟩ := r
  rw [sibling, bind_apply]
  cases scope with
  | none =>
    constructor
    · intro h
      cases h
    · rintro ⟨scope', heq, -⟩
      cases heq
  | some scope =>
    simp only [requireScope]
    cases hfield : scope.field? field with
    | none =>
      constructor
      · intro h
        cases h
      · rintro ⟨scope', heq, hsome, -⟩
        cases heq
        rw [hfield] at hsome
        cases hsome
    | some w =>
      constructor
      · intro h
        cases h
        exact ⟨scope, rfl, hfield, rfl⟩
      · rintro ⟨scope', heq, hsome, rfl⟩
        cases heq
        rw [hfield] at hsome
        cases hsome
        rfl

theorem Unpacking.candidate_eq_ok {run : Schema → Unpacking Value} {c : Candidate} {s : WalkState Cursor}
    {r : Value × WalkState Cursor} :
    candidate Γ run c s = .ok r ↔ ∃ schema, Γ.registry.resolve c = .ok schema ∧ run schema s = .ok r := by
  rw [candidate]
  cases hc : Γ.registry.resolve c with
  | error stop =>
    rw [Walk.resolve_bind_error hc]
    constructor
    · intro h
      cases h
    · rintro ⟨schema, hschema, -⟩
      cases hschema
  | ok schema =>
    rw [Walk.resolve_bind_ok hc]
    constructor
    · intro h
      exact ⟨schema, rfl, h⟩
    · rintro ⟨schema', heq, h⟩
      cases heq
      exact h

/-- A dependent field is read by the schema that its sibling selects. -/
theorem Sibling.unpackDepend_eq_ok {run : Schema → Unpacking Value} {field : String} {selector : Selector}
    {s : WalkState Cursor} {r : Value × WalkState Cursor} :
    unpackDepend Γ run field selector s = .ok r ↔
      ∃ scope dependent c schema, s.scope = some scope ∧ scope.field? field = some dependent ∧
        selector.select dependent = .ok c ∧ Γ.registry.resolve c = .ok schema ∧ run schema s = .ok r := by
  rw [unpackDepend, Walk.bind_eq_ok]
  constructor
  · rintro ⟨dependent, s₁, hsibling, hselect⟩
    obtain ⟨scope, hscope, hfield, rfl⟩ := Walk.sibling_eq_ok.mp hsibling
    obtain ⟨c, hc, hrun⟩ := Walk.ofExcept_bind_eq_ok.mp hselect
    obtain ⟨schema, hschema, hrun⟩ := Unpacking.candidate_eq_ok.mp hrun
    exact ⟨scope, dependent, c, schema, hscope, hfield, hc, hschema, hrun⟩
  · rintro ⟨scope, dependent, c, schema, hscope, hfield, hc, hschema, hrun⟩
    refine ⟨dependent, s, Walk.sibling_eq_ok.mpr ⟨scope, hscope, hfield, rfl⟩, ?_⟩
    exact Walk.ofExcept_bind_eq_ok.mpr ⟨c, hc, Unpacking.candidate_eq_ok.mpr ⟨schema, hschema, hrun⟩⟩

end

namespace Region

theorem unpack_fixed (Γ : Context) (n : Nat) : unpack Γ (.fixed n) = Unpacking.take n := by
  simp [unpack, Count.unpack]

theorem unpack_prefixed (Γ : Context) (number : Candidate) :
    unpack Γ (.prefixed number) = Count.prefixed? Γ number >>= Unpacking.take := by
  simp [unpack, Count.unpack, Count.prefixed?]

theorem unpack_auto (Γ : Context) : unpack Γ .auto = Unpacking.remaining >>= Unpacking.take := by
  simp [unpack, Count.unpack, Unpacking.remaining]

end Region

/-- With a size, a zero-terminated text is read from its region. -/
theorem Text.unpackTerminated_region {Γ : Context} {size : Count} (h : size ≠ .auto) :
    unpackTerminated Γ size = Region.unpack Γ size >>= fun raw =>
      Unpacking.decode Γ (beforeTerminator raw) >>= fun text => pure (.text text) := by
  cases size with
  | auto => exact absurd rfl h
  | fixed n => simp [unpackTerminated]
  | prefixed c => simp [unpackTerminated]

namespace Elements

variable {Γ : Context} {run : Schema → Unpacking Value} {item : Candidate}

theorem times_succ (step : Unpacking Value) (count : Nat) (done : List Value) :
    times step (count + 1) done = step >>= fun v => times step count (v :: done) := by
  funext s
  rw [Walk.bind_apply]
  simp only [times]
  cases step s <;> rfl

theorem packEach_succ (step : Value → Packing Unit) (count : Nat) (items : List Value) :
    packEach step (count + 1) items = step (items.head?.getD .null) >>= fun _ => packEach step count items.tail := by
  funext s
  rw [Walk.bind_apply]
  simp only [packEach]
  cases step (items.head?.getD .null) s <;> rfl

/-- Reading numbers one after another is repeating the step of one number. -/
theorem onMedium_unpackEach (Γ : Context) (kind : Number) (count : Nat) (done : List Value) :
    Walk.onMedium (kind.unpackEach Γ.options.byteOrder count done) = times (Unpacking.number Γ kind) count done := by
  induction count generalizing done with
  | zero => rfl
  | succ count ih =>
    simp only [times_succ, ← ih]
    funext s
    rw [Walk.bind_apply]
    simp only [Unpacking.number, Walk.onMedium, Number.unpackEach]
    cases kind.unpack Γ.options.byteOrder s.medium <;> rfl

/-- A known number of numbers is one block, or one number after another. -/
theorem unpackNumbers_some (Γ : Context) (kind : Number) (count : Nat) :
    unpackNumbers Γ kind (some count) =
      if kind.movesBlocks Γ.options.byteOrder then
        Unpacking.take (kind.size * count) >>= fun block => pure (kind.decodeBlock Γ.options.byteOrder block)
      else times (Unpacking.number Γ kind) count [] := by
  rw [← onMedium_unpackEach]
  unfold unpackNumbers
  split
  · next hblock =>
    funext s
    rw [Walk.bind_apply]
    simp only [Walk.onMedium, Option.getD_some, Number.unpackBlock, Unpacking.take]
    cases s.medium.take (kind.size * count) <;> rfl
  · simp

/-- Without a count there are as many numbers as fit into what is left. -/
theorem unpackNumbers_none (Γ : Context) (kind : Number) :
    unpackNumbers Γ kind none = Unpacking.remaining >>= fun left => unpackNumbers Γ kind (some (left / kind.size)) := rfl

theorem unpackArray_fixed (n : Nat) : unpackArray Γ run item (.fixed n) = unpack Γ run item (some n) := by
  simp [unpackArray, Count.unpack]

theorem unpackArray_prefixed (number : Candidate) :
    unpackArray Γ run item (.prefixed number) = Count.prefixed? Γ number >>= fun n => unpack Γ run item (some n) := by
  simp [unpackArray, Count.unpack, Count.prefixed?]

theorem unpackArray_auto : unpackArray Γ run item .auto = unpack Γ run item none := by
  simp [unpackArray, Count.unpack]

end Elements

namespace Schema

/-- Whether the end of the input implies the count. A zero-terminated text without a size has an end of its own. -/
def runsToEnd : Schema → Bool
  | array _ .auto | string .auto | parse _ _ _ .auto => true
  | _ => false

/-- Whether what runs inside reads from an input of its own: the window of a union, or a transformed region. -/
def opensInput : Schema → Bool
  | union _ _ | parse _ _ _ _ => true
  | _ => false

/-- Whether this is a schema kind defined by the user. -/
def isCustom : Schema → Bool
  | custom _ => true
  | _ => false

end Schema

namespace Unpacking

/-- A property of reading steps that is kept by one step after another, by taking bytes, and by looking at the scope without changing it. -/
structure Composable (P : (α : Type) → Unpacking α → Prop) : Prop where
  look {α : Type} {f : Option Scope → Except Stop (α × Option Scope)}
    (keeps : ∀ scope a scope', f scope = .ok (a, scope') → scope' = scope) : P α (Walk.onScope f)
  bind {α β : Type} {step : Unpacking α} {next : α → Unpacking β} (hstep : P α step) (hnext : ∀ a, P β (next a)) :
    P β (step >>= next)
  take (n : Nat) : P Bytes (take n)
  terminated : P Bytes (Walk.onMedium Text.takeTerminated)

/-- A property of reading steps that the ways of putting them together keep. -/
structure Compositional (P : (α : Type) → Unpacking α → Prop) : Prop extends Composable P where
  onScope {α : Type} (f : Option Scope → Except Stop (α × Option Scope)) : P α (Walk.onScope f)
  within {α : Type} (scope : Scope) {step : Unpacking α} (hstep : P α step) : P (α × Scope) (Walk.within scope step)
  aside {α : Type} (other : Cursor) (step : Unpacking α) : P (α × Cursor) (Walk.aside other step)
  look _ := onScope _

/-- What a property of reading steps must keep besides where counts are implied by the end of the input. -/
structure OpenEnded (P : (α : Type) → Unpacking α → Prop) : Prop where
  remaining : P Nat remaining
  untilEnd {step : Unpacking Value} (hstep : P Value step) :
    P (List Value) (Walk.medium >>= fun c => Elements.untilEnd step (Elements.roundsFor c.data) [])

namespace Composable

variable {P : (α : Type) → Unpacking α → Prop} {Γ : Context} {run : Schema → Unpacking Value}

theorem pure (h : Composable P) {α : Type} (a : α) : P α (Pure.pure a) := by
  rw [Walk.pure_eq_onScope]
  refine h.look fun scope a scope' seen => ?_
  cases seen
  rfl

theorem fail (h : Composable P) {α : Type} (fault : Fault) : P α (Walk.fail fault) := by
  rw [Walk.fail_eq_onScope]
  exact h.look nofun

theorem giveUp (h : Composable P) {α : Type} : P α Walk.giveUp := by
  rw [Walk.giveUp_eq_onScope]
  exact h.look nofun

theorem ofExcept (h : Composable P) {α : Type} (result : Except Fault α) : P α (Walk.ofExcept result) := by
  cases result with
  | ok a => exact h.pure a
  | error fault => exact h.fail fault

theorem sibling (h : Composable P) (kind field : String) : P Value (Walk.sibling kind field) := by
  rw [Walk.sibling_eq_onScope]
  refine h.look fun scope a scope' seen => ?_
  cases scope with
  | none => cases seen
  | some scope =>
    dsimp only at seen
    cases found : scope.field? field with
    | none =>
      rw [found] at seen
      cases seen
    | some v =>
      rw [found] at seen
      cases seen
      rfl

/-- What comes behind the resolution of a candidate matters only for the schema that the candidate stands for. -/
theorem resolve (h : Composable P) {α : Type} {c : Candidate} {next : Schema → Unpacking α}
    (hnext : ∀ schema, Γ.registry.resolve c = .ok schema → P α (next schema)) : P α (Walk.resolve Γ c >>= next) := by
  cases hc : Γ.registry.resolve c with
  | ok schema =>
    rw [Walk.resolve_bind_ok hc]
    exact hnext schema hc
  | error stop =>
    rw [Walk.resolve_bind_error hc]
    change P α (Walk.onScope fun _ => .error stop)
    exact h.look nofun

theorem candidate (h : Composable P) {c : Candidate}
    (hrun : ∀ schema, Γ.registry.resolve c = .ok schema → P Value (run schema)) : P Value (candidate Γ run c) :=
  h.resolve hrun

theorem resolveNumber (h : Composable P) (c : Candidate) (fault : Schema → Fault) :
    P Number (Walk.resolveNumber Γ c fault) := by
  refine h.resolve ?_
  intro schema _
  split
  · exact h.pure _
  · exact h.fail _

theorem number (h : Composable P) (kind : Number) : P Value (number Γ kind) := by
  rw [number_eq]
  exact h.bind (h.take _) fun _ => h.pure _

theorem decode (h : Composable P) (bytes : Bytes) : P String (decode Γ bytes) := h.ofExcept _

theorem ofCount (h : Composable P) (v : Value) : P Nat (Count.ofValue v) := by
  unfold Count.ofValue
  split
  · exact h.pure _
  · exact h.fail _

theorem prefixed (h : Composable P) (c : Candidate) : P Nat (Count.prefixed? Γ c) :=
  h.bind (h.resolveNumber c _) fun kind => h.bind (h.number kind) fun v => h.ofCount v

theorem count (h : Composable P) (count : Count) : P (Option Nat) (count.unpack Γ) := by
  cases count with
  | prefixed c => exact h.bind (h.resolveNumber c _) fun kind => h.bind (h.number kind) fun v => h.bind (h.ofCount v) fun _ => h.pure _
  | fixed _ | auto => exact h.pure _

/-- A region is read by taking bytes, unless it goes to the end of the input. -/
theorem region (h : Composable P) {size : Count} (hauto : size = .auto → OpenEnded P) : P Bytes (Region.unpack Γ size) := by
  cases size with
  | fixed n =>
    rw [Region.unpack_fixed]
    exact h.take n
  | prefixed c =>
    rw [Region.unpack_prefixed]
    exact h.bind (h.prefixed c) fun n => h.take n
  | auto =>
    rw [Region.unpack_auto]
    exact h.bind (hauto rfl).remaining fun n => h.take n

theorem text (h : Composable P) {size : Count} (hauto : size = .auto → OpenEnded P) : P Value (Text.unpack Γ size) :=
  h.bind (h.region hauto) fun _ => h.bind (h.decode _) fun _ => h.pure _

/-- A zero-terminated text needs no end of the input: without a size its terminator ends it. -/
theorem terminatedText (h : Composable P) (size : Count) : P Value (Text.unpackTerminated Γ size) := by
  by_cases hsize : size = .auto
  · subst hsize
    exact h.bind h.terminated fun _ => h.bind (h.decode _) fun _ => h.pure _
  · rw [Text.unpackTerminated_region hsize]
    exact h.bind (h.region fun hauto => absurd hauto hsize) fun _ => h.bind (h.decode _) fun _ => h.pure _

theorem times (h : Composable P) {step : Unpacking Value} (hstep : P Value step) (count : Nat) (done : List Value) :
    P (List Value) (Elements.times step count done) := by
  induction count generalizing done with
  | zero => exact h.pure _
  | succ count ih =>
    rw [Elements.times_succ]
    exact h.bind hstep fun v => ih (v :: done)

theorem numbers (h : Composable P) (kind : Number) (count : Nat) :
    P (List Value) (Elements.unpackNumbers Γ kind (some count)) := by
  rw [Elements.unpackNumbers_some]
  split
  · exact h.bind (h.take _) fun _ => h.pure _
  · exact h.times (h.number kind) count []

/-- A known number of elements is read by reading elements. -/
theorem elements (h : Composable P) {item : Candidate} (count : Nat)
    (hrun : ∀ schema, Γ.registry.resolve item = .ok schema → P Value (run schema)) :
    P Value (Elements.unpack Γ run item (some count)) := by
  refine h.resolve ?_
  intro schema hc
  split
  · exact h.bind (h.numbers _ count) fun _ => h.pure _
  · exact h.bind (h.times (hrun schema hc) count []) fun _ => h.pure _

/-- So are as many elements as there are. -/
theorem elementsToEnd (h : Composable P) (ho : OpenEnded P) {item : Candidate}
    (hrun : ∀ schema, Γ.registry.resolve item = .ok schema → P Value (run schema)) :
    P Value (Elements.unpack Γ run item none) := by
  refine h.resolve ?_
  intro schema hc
  split
  · rw [Elements.unpackNumbers_none]
    exact h.bind (h.bind ho.remaining fun _ => h.numbers _ _) fun _ => h.pure _
  · rw [← bind_assoc]
    exact h.bind (ho.untilEnd (hrun schema hc)) fun _ => h.pure _

theorem array (h : Composable P) {item : Candidate} {count : Count} (hauto : count = .auto → OpenEnded P)
    (hrun : ∀ schema, Γ.registry.resolve item = .ok schema → P Value (run schema)) :
    P Value (Elements.unpackArray Γ run item count) := by
  cases count with
  | fixed n =>
    rw [Elements.unpackArray_fixed]
    exact h.elements n hrun
  | prefixed c =>
    rw [Elements.unpackArray_prefixed]
    exact h.bind (h.prefixed c) fun n => h.elements n hrun
  | auto =>
    rw [Elements.unpackArray_auto]
    exact h.elementsToEnd (hauto rfl) hrun

theorem enumeration (h : Composable P) (names : List (String × Int64)) (base : Candidate) :
    P Value (Enumeration.unpack Γ names base) :=
  h.bind (h.resolveNumber base _) fun kind => h.bind (h.number kind) fun _ => h.pure _

theorem depend (h : Composable P) (field : String) (selector : Selector)
    (hrun : ∀ v c schema, selector.select v = .ok c → Γ.registry.resolve c = .ok schema → P Value (run schema)) :
    P Value (Sibling.unpackDepend Γ run field selector) := by
  refine h.bind (h.sibling "depend" field) ?_
  intro v
  cases hv : selector.select v with
  | error fault => exact h.fail fault
  | ok c => exact h.candidate fun schema hc => hrun v c schema hv hc

theorem link (h : Composable P) (field : String) {item : Candidate}
    (hrun : ∀ schema, Γ.registry.resolve item = .ok schema → P Value (run schema)) :
    P Value (Sibling.unpackLink Γ run field item) :=
  h.bind (h.sibling "link" field) fun v => h.bind (h.ofCount v) fun n => h.elements n hrun

end Composable

namespace Compositional

variable {P : (α : Type) → Unpacking α → Prop} {Γ : Context} {run : Schema → Unpacking Value}

theorem exitScope (h : Compositional P) (kind : String) : P Unit (Walk.exitScope kind) := by
  rw [Walk.exitScope_eq_onScope]
  exact h.onScope _

/-- Fields are read one after another, each in the scope of the body. -/
theorem fields (h : Compositional P) {readField : Candidate → Unpacking Value} (entries : Keyed Candidate) (scope : Scope)
    (hread : ∀ before key c after, entries = before ++ (key, c) :: after → P Value (readField c)) :
    P Scope (Body.unpackFields readField entries scope) := by
  induction entries generalizing scope with
  | nil => exact h.pure _
  | cons entry rest ih =>
    obtain ⟨key, c⟩ := entry
    have hrest : ∀ before key' c' after, rest = before ++ (key', c') :: after → P Value (readField c') := by
      intro before key' c' after hsplit
      exact hread ((key, c) :: before) key' c' after (by rw [hsplit]; rfl)
    rw [Body.unpackFields]
    split
    · exact ih _ hrest
    · exact h.bind (h.within scope (hread [] key c rest rfl)) fun _ => ih _ hrest

theorem object (h : Compositional P) (layout : Layout)
    (hrun : ∀ before key c after schema, layout.entries = before ++ (key, c) :: after → Γ.registry.resolve c = .ok schema →
      P Value (run schema)) : P Value (Body.unpackObject (Unpacking.candidate Γ run) layout) := by
  refine h.bind (h.fields _ _ ?_) fun _ => h.pure _
  intro before key c after hsplit
  exact h.candidate fun schema hc => hrun before key c after schema hsplit hc

/-- The fields of a union run over an input of their own, so nothing is asked of them. -/
theorem union (h : Compositional P) (layout : Layout) (size : Nat) :
    P Value (Body.unpackUnion (Unpacking.candidate Γ run) layout size) := by
  refine h.bind (h.take size) fun window => h.bind (h.fields _ _ ?_) fun _ => h.pure _
  intro before key c after _
  exact h.bind (h.aside _ _) fun _ => h.pure _

/-- The inner schema of a transformed region runs over an input of its own, so nothing is asked of it. -/
theorem transform (h : Compositional P) (decode : Transcoder) (inner : Candidate) {size : Count}
    (hauto : size = .auto → OpenEnded P) : P Value (Transform.unpack Γ run decode inner size) :=
  h.bind (h.region hauto) fun _ => h.bind (h.ofExcept _) fun _ => h.bind (h.aside _ _) fun _ => h.pure _

/-- A property that reading keeps holds for the step of a schema when it holds for the steps of what runs inside it over the same
input. -/
theorem unpackStep (h : Compositional P) {schema : Schema} (place : Option Place) (isParsed : Bool)
    (hcustom : schema.isCustom = false) (hauto : schema.runsToEnd = true → OpenEnded P)
    (hrun : schema.opensInput = false → ∀ site, Site.Runs Γ.registry .any ⟨schema, place, isParsed⟩ site →
      P Value (run site.schema)) : P Value (Codec.unpackStep Γ run schema) := by
  cases schema with
  | number kind => exact h.number kind
  | array item count =>
    refine h.array (fun hcount => hauto (by rw [hcount]; rfl)) fun schema hc => ?_
    exact hrun rfl ⟨schema, place, isParsed⟩ (.item hc)
  | string size => exact h.text fun hsize => hauto (by rw [hsize]; rfl)
  | cstring size => exact h.terminatedText size
  | object layout =>
    refine h.object layout ?_
    intro before key c after schema hsplit hc
    exact hrun rfl ⟨schema, some ⟨layout, before⟩, false⟩ (.field hsplit hc)
  | union layout size => exact h.union layout size
  | enums names base => exact h.enumeration names base
  | depend field selector =>
    refine h.depend field selector ?_
    intro v c schema hv hc
    exact hrun rfl ⟨schema, place, isParsed⟩ (.selected trivial hv hc)
  | link field item =>
    refine h.link field ?_
    intro schema hc
    exact hrun rfl ⟨schema, place, isParsed⟩ (.linked hc)
  | computed operator v => exact h.pure _
  | exit => exact h.bind (h.exitScope "exit") fun _ => h.pure _
  | parse encode decode inner size => exact h.transform decode inner fun hsize => hauto (by rw [hsize]; rfl)
  | custom extension => exact absurd hcustom (by simp [Schema.isCustom])

end Compositional

end Unpacking

end WireLayout
