import WireLayout.Proofs.Leaving
import WireLayout.Proofs.Spelling

/-!
# Names are transparent

Two runs of a schema and of another spelling of it, in bodies that are the same but for spellings, do the same: both succeed, with the
same values and the same medium, or both stop, and their faults differ at most in words (`Parallel`). The property is closed under
everything that steps are made of, so that it is enough to look at the places where a candidate is resolved. A user-defined kind can
ask for the text of a sibling schema, and sees how it is spelled; such kinds must not run inside.
-/

namespace WireLayout

/-- Two outcomes are related, or both are failures that differ in words only. -/
inductive Matched {ρ : Type} (R : ρ → ρ → Prop) : Except Stop ρ → Except Stop ρ → Prop where
  | ok {a b : ρ} (h : R a b) : Matched R (.ok a) (.ok b)
  | stop {stop stop' : Stop} (h : stop.bare = stop'.bare) : Matched R (.error stop) (.error stop')

theorem Matched.imp {ρ : Type} {R S : ρ → ρ → Prop} {a b : Except Stop ρ} (h : Matched R a b)
    (himp : ∀ a b, R a b → S a b) : Matched S a b := by
  cases h with
  | ok h => exact .ok (himp _ _ h)
  | stop h => exact .stop h

theorem Matched.map {ρ σ : Type} {R : ρ → ρ → Prop} {S : σ → σ → Prop} {a b : Except Stop ρ} {f : ρ → σ}
    (h : Matched R a b) (himp : ∀ a b, R a b → S (f a) (f b)) : Matched S (a.map f) (b.map f) := by
  cases h with
  | ok h => exact .ok (himp _ _ h)
  | stop h => exact .stop h

/-- Outcomes that are related by being the same are the same but for words. -/
theorem Matched.mapError_bare {ρ : Type} {a b : Except Stop ρ} (h : Matched Eq a b) :
    a.mapError Stop.bare = b.mapError Stop.bare := by
  cases h with
  | ok h => rw [h]
  | stop h => exact congrArg Except.error h

/-! ## Bodies but for the spelling of their fields -/

/-- Two bodies that are the same but for the spelling of their fields, the first one of which has the given layout. -/
structure SameBody (r : Registry) (layout : Layout) (s s' : Scope) : Prop where
  body : s.layout = layout
  spelled : Layout.Respelled r layout s'.layout
  value : s'.value = s.value
  offsets : s'.offsets = s.offsets
  exited : s'.isExited = s.isExited

namespace SameBody

variable {r : Registry} {layout layout' : Layout} {s s' : Scope}

theorem exit (h : SameBody r layout s s') : SameBody r layout s.exit s'.exit := { h with exited := rfl }

theorem mark (h : SameBody r layout s s') (key : String) (offset : Nat) : SameBody r layout (s.mark key offset) (s'.mark key offset) :=
  { h with offsets := by simp only [Scope.mark, h.offsets] }

theorem push (h : SameBody r layout s s') (key : String) (v : Value) : SameBody r layout (s.push key v) (s'.push key v) := by
  simp only [Scope.push, h.value]
  split
  · exact { h with value := rfl }
  · exact { h with value := rfl }
  · exact h

theorem field? (h : SameBody r layout s s') (field : String) : s'.field? field = s.field? field := by
  rw [Scope.field?, Scope.field?, h.value]

theorem reading (h : Layout.Respelled r layout layout') : SameBody r layout (.reading layout) (.reading layout') :=
  ⟨rfl, h, h.emptyValue, rfl, rfl⟩

theorem writing (h : Layout.Respelled r layout layout') (v : Value) : SameBody r layout (.writing layout v) (.writing layout' v) :=
  ⟨rfl, h, rfl, rfl, rfl⟩

end SameBody

/-- What is around two runs, by the layout of the first one. -/
inductive Around (r : Registry) : Option Layout → Option Scope → Option Scope → Prop where
  | outside : Around r none none none
  | inside {layout : Layout} {s s' : Scope} (h : SameBody r layout s s') : Around r (some layout) (some s) (some s')

/-- What two runs of a step lead to: related values, the same medium, and the same around but for spellings. -/
structure SameAfter {μ α : Type} (r : Registry) (body : Option Layout) (V : α → α → Prop) (a b : α × WalkState μ) : Prop where
  value : V a.1 b.1
  medium : b.2.medium = a.2.medium
  around : Around r body a.2.scope b.2.scope

/-- Outside every body, steps that lead to the same value lead to the same. -/
theorem SameAfter.eq {μ α : Type} {r : Registry} {a b : α × WalkState μ} (h : SameAfter r none Eq a b) : a = b := by
  obtain ⟨a, medium, scope⟩ := a
  obtain ⟨b, medium', scope'⟩ := b
  obtain rfl : a = b := h.value
  obtain rfl : medium' = medium := h.medium
  cases h.around
  rfl

/-- Two steps do the same in bodies that are the same but for spellings. -/
def Parallel {μ α : Type} (r : Registry) (body : Option Layout) (V : α → α → Prop) (step step' : Walk μ α) : Prop :=
  ∀ medium scope scope', Around r body scope scope' →
    Matched (SameAfter r body V) (step ⟨medium, scope⟩) (step' ⟨medium, scope'⟩)

namespace Parallel

variable {μ α β : Type} {r : Registry} {Γ : Context} {body : Option Layout} {V : α → α → Prop} {W : β → β → Prop}

theorem bind {step step' : Walk μ α} {next next' : α → Walk μ β} (h : Parallel r body V step step')
    (hnext : ∀ a b, V a b → Parallel r body W (next a) (next' b)) : Parallel r body W (step >>= next) (step' >>= next') := by
  intro medium scope scope' around
  have first := h medium scope scope' around
  rw [Walk.bind_apply, Walk.bind_apply]
  generalize step ⟨medium, scope⟩ = left at first
  generalize step' ⟨medium, scope'⟩ = right at first
  cases first with
  | stop h => exact .stop h
  | @ok a b meets =>
    obtain ⟨a, medium₁, scope₁⟩ := a
    obtain ⟨b, medium₂, scope₂⟩ := b
    obtain rfl : medium₂ = medium₁ := meets.medium
    exact hnext a b meets.value medium₂ scope₁ scope₂ meets.around

/-- A sequence of which the second step goes on from the same value. -/
theorem seq {step step' : Walk μ α} {next next' : α → Walk μ β} (h : Parallel r body Eq step step')
    (hnext : ∀ a, Parallel r body W (next a) (next' a)) : Parallel r body W (step >>= next) (step' >>= next') := by
  refine h.bind ?_
  rintro a b rfl
  exact hnext a

theorem pure {a b : α} (h : V a b) : Parallel (μ := μ) r body V (Pure.pure a) (Pure.pure b) :=
  fun _ _ _ around => .ok ⟨h, rfl, around⟩

theorem stop {stop stop' : Stop} (h : stop.bare = stop'.bare) :
    Parallel (μ := μ) r body V (fun _ => .error stop) (fun _ => .error stop') := fun _ _ _ _ => .stop h

/-- A step that does not look at the body around does the same twice. -/
theorem scopeless {step : Walk μ α} (h : Walk.Scopeless step) : Parallel r body Eq step step := by
  intro medium scope scope' around
  rw [h medium scope, h medium scope']
  cases step ⟨medium, none⟩ with
  | error stop => exact .stop rfl
  | ok result => exact .ok ⟨rfl, rfl, around⟩

theorem ofExcept (result : Except Fault α) : Parallel (μ := μ) r body Eq (Walk.ofExcept result) (Walk.ofExcept result) :=
  scopeless (.ofExcept result)

theorem onMedium (f : μ → Except Fault (α × μ)) : Parallel r body Eq (Walk.onMedium f) (Walk.onMedium f) :=
  scopeless (.onMedium f)

theorem exitScope (kind : String) : Parallel (μ := μ) r body Eq (Walk.exitScope kind) (Walk.exitScope kind) := by
  intro medium scope scope' around
  cases around with
  | outside => exact .stop rfl
  | inside h => exact .ok ⟨rfl, rfl, .inside h.exit⟩

theorem sibling (kind field : String) : Parallel (μ := μ) r body Eq (Walk.sibling kind field) (Walk.sibling kind field) := by
  intro medium scope scope' around
  cases around with
  | outside => exact .stop rfl
  | @inside layout s s' h =>
    simp only [Walk.sibling_eq_onScope, Walk.onScope, h.field?]
    cases s.field? field with
    | none => exact .stop rfl
    | some v => exact .ok ⟨rfl, rfl, .inside h⟩

/-- Steps in bodies inside, which are given back behind them. -/
theorem within {layout : Layout} {s s' : Scope} (hs : SameBody r layout s s') {step step' : Walk μ α}
    (h : Parallel r (some layout) V step step') :
    Parallel r body (fun a b => V a.1 b.1 ∧ SameBody r layout a.2 b.2) (Walk.within s step) (Walk.within s' step') := by
  intro medium scope scope' around
  have inside := h medium (some s) (some s') (.inside hs)
  simp only [Walk.within]
  generalize step ⟨medium, some s⟩ = left at inside
  generalize step' ⟨medium, some s'⟩ = right at inside
  cases inside with
  | stop h => exact .stop h
  | @ok a b meets =>
    obtain ⟨a, medium₁, scope₁⟩ := a
    obtain ⟨b, medium₂, scope₂⟩ := b
    cases meets.around with
    | inside hinner => exact .ok ⟨⟨meets.value, hinner⟩, meets.medium, around⟩

/-- Steps over another medium, which is given back behind them. -/
theorem aside {step step' : Walk μ α} (h : Parallel r body V step step') (other : μ) :
    Parallel r body (fun a b => V a.1 b.1 ∧ a.2 = b.2) (Walk.aside other step) (Walk.aside other step') := by
  intro medium scope scope' around
  have apart := h other scope scope' around
  simp only [Walk.aside]
  generalize step ⟨other, scope⟩ = left at apart
  generalize step' ⟨other, scope'⟩ = right at apart
  cases apart with
  | stop h => exact .stop h
  | ok meets => exact .ok ⟨⟨meets.value, meets.medium.symm⟩, rfl, meets.around⟩

/-! ## Where candidates are resolved -/

theorem resolve {c c' : Candidate} (h : Candidate.Respelled Γ.registry c c') {next next' : Schema → Walk μ β}
    (hnext : ∀ schema schema', Γ.registry.resolve c = .ok schema → Schema.Respelled Γ.registry schema schema' →
      Parallel r body W (next schema) (next' schema')) :
    Parallel r body W (Walk.resolve Γ c >>= next) (Walk.resolve Γ c' >>= next') := by
  rcases h.resolve with ⟨schema, schema', left, right, inside⟩ | ⟨stop, left, right⟩
  · rw [Walk.resolve_bind_ok left, Walk.resolve_bind_ok right]
    exact hnext schema schema' left inside
  · rw [Walk.resolve_bind_error left, Walk.resolve_bind_error right]
    exact Parallel.stop rfl

/-- A number is found under either spelling, or the same fault but for words. -/
theorem resolveNumber {c c' : Candidate} (h : Candidate.Respelled Γ.registry c c') {fault : Schema → Fault}
    (hfault : ∀ schema schema', (fault schema).bare = (fault schema').bare) :
    Parallel (μ := μ) r body Eq (Walk.resolveNumber Γ c fault) (Walk.resolveNumber Γ c' fault) := by
  refine resolve h fun schema schema' _ inside => ?_
  have words : Stop.bare (.fault (fault schema)) = Stop.bare (.fault (fault schema')) := congrArg Stop.fault (hfault schema schema')
  cases inside with
  | number kind => exact Parallel.pure rfl
  | _ => exact Parallel.stop words

end Parallel

/-! ## Reading -/

namespace Unpacking

open Parallel

variable {r : Registry} {Γ : Context} {body : Option Layout} {run : Schema → Unpacking Value}

theorem parallel_candidate {c c' : Candidate} (h : Candidate.Respelled Γ.registry c c')
    (hrun : ∀ schema schema', Γ.registry.resolve c = .ok schema → Schema.Respelled Γ.registry schema schema' →
      Parallel r body Eq (run schema) (run schema')) : Parallel r body Eq (candidate Γ run c) (candidate Γ run c') :=
  Parallel.resolve h hrun

theorem parallel_ofCount (v : Value) : Parallel r body Eq (Count.ofValue v) (Count.ofValue v) :=
  Parallel.scopeless (Count.scopeless_ofValue v)

theorem parallel_count {count count' : Count} (h : Count.Respelled Γ.registry count count') :
    Parallel r body Eq (count.unpack Γ) (count'.unpack Γ) := by
  cases h with
  | fixed n => exact Parallel.pure rfl
  | auto => exact Parallel.pure rfl
  | prefixed hnumber =>
    refine (Parallel.resolveNumber hnumber fun _ _ => rfl).seq fun kind => ?_
    exact (Parallel.onMedium _).seq fun v => (parallel_ofCount v).seq fun n => Parallel.pure rfl

theorem parallel_medium : Parallel r body Eq (Walk.medium : Unpacking Cursor) Walk.medium := Parallel.scopeless .medium

theorem parallel_region {size size' : Count} (h : Count.Respelled Γ.registry size size') :
    Parallel r body Eq (Region.unpack Γ size) (Region.unpack Γ size') := by
  refine (parallel_count h).seq fun n => ?_
  cases n with
  | some n => exact Parallel.onMedium _
  | none => exact parallel_medium.seq fun c => Parallel.onMedium _

theorem parallel_text {size size' : Count} (h : Count.Respelled Γ.registry size size') :
    Parallel r body Eq (Text.unpack Γ size) (Text.unpack Γ size') := by
  have fixed : size'.isFixed = size.isFixed := by cases h <;> rfl
  refine (parallel_region h).seq fun raw => ?_
  rw [fixed]
  exact (Parallel.ofExcept _).seq fun text => Parallel.pure rfl

theorem parallel_terminatedText {size size' : Count} (h : Count.Respelled Γ.registry size size') :
    Parallel r body Eq (Text.unpackTerminated Γ size) (Text.unpackTerminated Γ size') := by
  by_cases hauto : size = .auto
  · subst hauto
    cases h
    exact (Parallel.onMedium _).seq fun raw => (Parallel.ofExcept _).seq fun text => Parallel.pure rfl
  · have hauto' : size' ≠ .auto := by
      rintro rfl
      cases h
      exact hauto rfl
    rw [Text.unpackTerminated_region hauto, Text.unpackTerminated_region hauto']
    exact (parallel_region h).seq fun raw => (Parallel.ofExcept _).seq fun text => Parallel.pure rfl

theorem parallel_times {step step' : Unpacking Value} (h : Parallel r body Eq step step') (count : Nat) (done : List Value) :
    Parallel r body Eq (Elements.times step count done) (Elements.times step' count done) := by
  induction count generalizing done with
  | zero => exact Parallel.pure rfl
  | succ count ih =>
    rw [Elements.times_succ, Elements.times_succ]
    exact h.seq fun v => ih (v :: done)

theorem parallel_untilEnd {step step' : Unpacking Value} (h : Parallel r body Eq step step') (rounds : Nat) (done : List Value) :
    Parallel r body Eq (Elements.untilEnd step rounds done) (Elements.untilEnd step' rounds done) := by
  induction rounds generalizing done with
  | zero => exact Parallel.stop rfl
  | succ rounds ih =>
    intro medium scope scope' around
    simp only [Elements.untilEnd]
    split
    · exact .ok ⟨rfl, rfl, around⟩
    · have first := h medium scope scope' around
      generalize step ⟨medium, scope⟩ = left at first
      generalize step' ⟨medium, scope'⟩ = right at first
      cases first with
      | stop h => exact .stop h
      | @ok a b meets =>
        obtain ⟨v, medium₁, scope₁⟩ := a
        obtain ⟨v', medium₂, scope₂⟩ := b
        obtain rfl : v = v' := meets.value
        obtain rfl : medium₂ = medium₁ := meets.medium
        dsimp only
        split
        · exact .ok ⟨rfl, rfl, meets.around⟩
        · exact ih (v :: done) medium₂ scope₁ scope₂ meets.around

theorem parallel_elements {item item' : Candidate} (h : Candidate.Respelled Γ.registry item item') (count : Option Nat)
    (hrun : ∀ schema schema', Γ.registry.resolve item = .ok schema → Schema.Respelled Γ.registry schema schema' →
      Parallel r body Eq (run schema) (run schema')) :
    Parallel r body Eq (Elements.unpack Γ run item count) (Elements.unpack Γ run item' count) := by
  refine Parallel.resolve h fun schema schema' resolved inside => ?_
  have step := hrun schema schema' resolved inside
  cases inside with
  | number kind => exact (Parallel.onMedium _).seq fun _ => Parallel.pure rfl
  | _ =>
    cases count with
    | some n => exact (parallel_times step n []).seq fun _ => Parallel.pure rfl
    | none => exact parallel_medium.seq fun c => (parallel_untilEnd step _ []).seq fun _ => Parallel.pure rfl

theorem parallel_fields {readField readField' : Candidate → Unpacking Value} {layout : Layout} {fields fields' : Keyed Candidate}
    (h : Keyed.Respelled Γ.registry fields fields')
    (hread : ∀ key c c', (key, c) ∈ fields → Candidate.Respelled Γ.registry c c' →
      Parallel Γ.registry (some layout) Eq (readField c) (readField' c')) {s s' : Scope} (hs : SameBody Γ.registry layout s s') :
    Parallel Γ.registry body (SameBody Γ.registry layout) (Body.unpackFields readField fields s)
      (Body.unpackFields readField' fields' s') := by
  induction fields generalizing fields' s s' with
  | nil =>
    cases h
    exact Parallel.pure hs
  | cons field rest ih =>
    cases h with
    | @cons key c c' _ rest' hc hrest =>
      have hreadRest := fun key c c' hmem => hread key c c' (List.mem_cons_of_mem _ hmem)
      rw [Body.unpackFields, Body.unpackFields, hs.exited]
      split
      · exact ih hrest hreadRest (hs.push key .null)
      · refine (Parallel.within hs (hread key c c' List.mem_cons_self hc)).bind ?_
        rintro ⟨v, t⟩ ⟨v', t'⟩ ⟨hv, ht⟩
        obtain rfl : v = v' := hv
        exact ih hrest hreadRest (ht.push key v)

theorem parallel_object {readField : Candidate → Unpacking Value} {layout layout' : Layout}
    (h : Layout.Respelled Γ.registry layout layout')
    (hread : ∀ key c c', (key, c) ∈ layout.entries → Candidate.Respelled Γ.registry c c' →
      Parallel Γ.registry (some layout) Eq (readField c) (readField c')) :
    Parallel Γ.registry body Eq (Body.unpackObject readField layout) (Body.unpackObject readField layout') :=
  (parallel_fields h.entries hread (.reading h)).bind fun _ _ hs => Parallel.pure hs.value.symm

theorem parallel_union {readField : Candidate → Unpacking Value} {layout layout' : Layout} (size : Nat)
    (h : Layout.Respelled Γ.registry layout layout')
    (hread : ∀ key c c', (key, c) ∈ layout.entries → Candidate.Respelled Γ.registry c c' →
      Parallel Γ.registry (some layout) Eq (readField c) (readField c')) :
    Parallel Γ.registry body Eq (Body.unpackUnion readField layout size) (Body.unpackUnion readField layout' size) := by
  refine (Parallel.onMedium _).seq fun window => ?_
  refine (parallel_fields h.entries (fun key c c' hmem hc => ?_) (.reading h)).bind fun _ _ hs =>
    Parallel.pure hs.value.symm
  exact ((hread key c c' hmem hc).aside _).bind fun _ _ hv => Parallel.pure hv.1

end Unpacking

namespace Codec

variable {Γ : Context}

/-- Reading another spelling of a schema does the same, where no user-defined kind runs inside. -/
theorem unpack_parallel (depth : Nat) {site : Site} {schema' : Schema}
    (plain : Site.Throughout Γ.registry .any (fun site => site.schema.isCustom = false) site)
    (h : Schema.Respelled Γ.registry site.schema schema') :
    Parallel Γ.registry (site.place.map (·.layout)) Eq (unpack Γ depth site.schema) (unpack Γ depth schema') := by
  induction depth generalizing site schema' with
  | zero => exact Parallel.stop rfl
  | succ depth ih =>
    obtain ⟨schema, place, isParsed⟩ := site
    cases h with
    | number kind => exact Parallel.onMedium _
    | array hitem hcount =>
      refine (Unpacking.parallel_count hcount).seq fun n => Unpacking.parallel_elements hitem n ?_
      intro schema schema' resolved inside
      exact ih (plain.of_runs (.item resolved)) inside
    | string hsize => exact Unpacking.parallel_text hsize
    | cstring hsize => exact Unpacking.parallel_terminatedText hsize
    | object hlayout =>
      refine Unpacking.parallel_object hlayout fun key c c' hmem hc => Unpacking.parallel_candidate hc ?_
      intro schema schema' resolved inside
      obtain ⟨before, after, split⟩ := List.append_of_mem hmem
      exact ih (plain.of_runs (.field split resolved)) inside
    | union size hlayout =>
      refine Unpacking.parallel_union size hlayout fun key c c' hmem hc => Unpacking.parallel_candidate hc ?_
      intro schema schema' resolved inside
      obtain ⟨before, after, split⟩ := List.append_of_mem hmem
      exact ih (plain.of_runs (.view split resolved)) inside
    | enums names hbase =>
      exact (Parallel.resolveNumber hbase fun _ _ => rfl).seq fun kind => (Parallel.onMedium _).seq fun raw => Parallel.pure rfl
    | depend field selector =>
      refine (Parallel.sibling "depend" field).seq fun v => ?_
      cases selects : selector.select v with
      | error fault => exact Parallel.stop rfl
      | ok c =>
        refine Unpacking.parallel_candidate (.same c) fun schema schema' resolved inside => ?_
        exact ih (plain.of_runs (.selected trivial selects resolved)) inside
    | link field hitem =>
      refine (Parallel.sibling "link" field).seq fun v => (Unpacking.parallel_ofCount v).seq fun n => ?_
      refine Unpacking.parallel_elements hitem (some n) fun schema schema' resolved inside => ?_
      exact ih (plain.of_runs (.linked resolved)) inside
    | computed operator v => exact Parallel.pure rfl
    | exit => exact (Parallel.exitScope "exit").seq fun _ => Parallel.pure rfl
    | parse encode decode hinner hsize =>
      refine (Unpacking.parallel_region hsize).seq fun raw => (Parallel.ofExcept _).seq fun decoded => ?_
      refine Parallel.bind (Parallel.aside (Unpacking.parallel_candidate hinner ?_) _) fun _ _ hv => Parallel.pure hv.1
      intro schema schema' resolved inside
      exact ih (plain.of_runs (.inner resolved)) inside
    | custom extension => exact absurd plain.here (by simp [Schema.isCustom])

end Codec

/-! ## Writing -/

namespace Packing

open Parallel

variable {r : Registry} {Γ : Context} {body : Option Layout} {run : Schema → Value → Packing Unit}

theorem parallel_onOutput (f : Bytes → Except Fault Bytes) : Parallel r body Eq (onOutput f) (onOutput f) :=
  Parallel.scopeless (scopeless_onOutput f)

theorem parallel_emit (bytes : Bytes) : Parallel r body Eq (emit bytes) (emit bytes) := Parallel.scopeless fun _ _ => rfl

theorem parallel_collect {step step' : Packing Unit} (h : Parallel r body Eq step step') :
    Parallel r body Eq (collect step) (collect step') :=
  (Parallel.aside h #[]).bind fun _ _ hwritten => Parallel.pure hwritten.2

theorem parallel_candidate {c c' : Candidate} (h : Candidate.Respelled Γ.registry c c') (v : Value)
    (hrun : ∀ schema schema', Γ.registry.resolve c = .ok schema → Schema.Respelled Γ.registry schema schema' →
      Parallel r body Eq (run schema v) (run schema' v)) : Parallel r body Eq (candidate Γ run c v) (candidate Γ run c' v) :=
  Parallel.resolve h hrun

theorem parallel_count {count count' : Count} (h : Count.Respelled Γ.registry count count') (n : Nat) :
    Parallel r body Eq (count.pack Γ n) (count'.pack Γ n) := by
  cases h with
  | fixed n => exact Parallel.pure rfl
  | auto => exact Parallel.pure rfl
  | prefixed hnumber => exact (Parallel.resolveNumber hnumber fun _ _ => rfl).seq fun kind => parallel_onOutput _

theorem parallel_region {size size' : Count} (h : Count.Respelled Γ.registry size size') (bytes : Bytes) :
    Parallel r body Eq (Region.pack Γ size bytes) (Region.pack Γ size' bytes) := by
  have counted : Parallel r body Eq (size.pack Γ bytes.size) (size'.pack Γ bytes.size) := parallel_count h bytes.size
  cases h with
  | fixed n => exact parallel_emit _
  | _ => exact counted.seq fun _ => parallel_emit bytes

theorem parallel_textOf (v : Value) : Parallel r body Eq (Text.ofValue v) (Text.ofValue v) := by
  refine Parallel.scopeless ?_
  unfold Text.ofValue
  split
  · exact .pure _
  · exact .pure _
  · exact .stop _

theorem parallel_elementsOf (v : Value) : Parallel r body Eq (Elements.ofValue v) (Elements.ofValue v) := by
  refine Parallel.scopeless ?_
  unfold Elements.ofValue
  split
  · exact .pure _
  · exact .pure _
  · exact .stop _

theorem parallel_packEach {step step' : Value → Packing Unit} (h : ∀ v, Parallel r body Eq (step v) (step' v)) (count : Nat)
    (items : List Value) : Parallel r body Eq (Elements.packEach step count items) (Elements.packEach step' count items) := by
  induction count generalizing items with
  | zero => exact Parallel.pure rfl
  | succ count ih =>
    rw [Elements.packEach_succ, Elements.packEach_succ]
    exact (h _).seq fun _ => ih items.tail

theorem parallel_elements {item item' : Candidate} (h : Candidate.Respelled Γ.registry item item')
    (hrun : ∀ schema schema' v, Γ.registry.resolve item = .ok schema → Schema.Respelled Γ.registry schema schema' →
      Parallel r body Eq (run schema v) (run schema' v)) (items : List Value) (count : Nat) :
    Parallel r body Eq (Elements.pack Γ run item items count) (Elements.pack Γ run item' items count) := by
  refine Parallel.resolve h fun schema schema' resolved inside => ?_
  have each := parallel_packEach (fun v => hrun schema schema' v resolved inside) count items
  cases inside with
  | number kind =>
    show Parallel r body Eq (Elements.packNumbers Γ kind items count) (Elements.packNumbers Γ kind items count)
    unfold Elements.packNumbers
    split
    · exact parallel_onOutput _
    · exact parallel_packEach (fun v => parallel_onOutput _) count items
  | _ => exact each

/-- The bytes of a count are those of a number, or of the value that the count is. -/
theorem parallel_countBytes {counter counter' : Candidate} (h : Candidate.Respelled Γ.registry counter counter') (n : Nat)
    (hrun : ∀ schema schema', Γ.registry.resolve counter = .ok schema → Schema.Respelled Γ.registry schema schema' →
      Parallel r body Eq (run schema (.ofCount n)) (run schema' (.ofCount n))) :
    Parallel r body Eq (Sibling.countBytes Γ run counter n) (Sibling.countBytes Γ run counter' n) := by
  refine Parallel.resolve h fun schema schema' resolved inside => ?_
  have written := parallel_collect (hrun schema schema' resolved inside)
  cases inside with
  | number kind => exact parallel_collect (parallel_onOutput _)
  | _ => exact written

theorem parallel_link {field : String} {item item' : Candidate} (h : Candidate.Respelled Γ.registry item item')
    (hcount : ∀ layout counter schema schema' n, body = some layout → layout.get? field = some counter →
      Γ.registry.resolve counter = .ok schema → Schema.Respelled Γ.registry schema schema' →
      Parallel Γ.registry body Eq (run schema (.ofCount n)) (run schema' (.ofCount n)))
    (hrun : ∀ schema schema' v, Γ.registry.resolve item = .ok schema → Schema.Respelled Γ.registry schema schema' →
      Parallel Γ.registry body Eq (run schema v) (run schema' v)) (v : Value) :
    Parallel Γ.registry body Eq (Sibling.packLink Γ run field item v) (Sibling.packLink Γ run field item' v) := by
  refine (parallel_elementsOf v).seq fun items out scope scope' around => ?_
  rw [Walk.bind_apply, Walk.bind_apply]
  cases around with
  | outside => exact .stop rfl
  | @inside layout s s' hs =>
    have counters : Option.Rel (Candidate.Respelled Γ.registry) (s.fieldSchema? field) (s'.fieldSchema? field) := by
      rw [Scope.fieldSchema?, hs.body]
      exact hs.spelled.get? field
    have offsets : s'.offset? field = s.offset? field := by rw [Scope.offset?, hs.offsets, Scope.offset?]
    have found : s.fieldSchema? field = layout.get? field := by rw [Scope.fieldSchema?, hs.body]
    simp only [Walk.requireScope, offsets]
    generalize s.fieldSchema? field = left at counters found
    generalize s'.fieldSchema? field = right at counters
    cases counters with
    | none => exact .stop rfl
    | @some counter counter' hcounter =>
      cases s.offset? field with
      | none => exact .stop rfl
      | some offset =>
        have bytes := parallel_countBytes hcounter items.length fun schema schema' resolved inside =>
          hcount layout counter schema schema' items.length rfl found.symm resolved inside
        exact bytes.seq (fun count => (parallel_onOutput _).seq fun _ => parallel_elements h hrun items _) out _ _ (.inside hs)

theorem parallel_fields {writeField : Candidate → Value → Packing Unit} {layout : Layout} {fields fields' : Keyed Candidate} (v : Value)
    (h : Keyed.Respelled Γ.registry fields fields')
    (hwrite : ∀ key c c' content, (key, c) ∈ fields → Candidate.Respelled Γ.registry c c' →
      Parallel Γ.registry (some layout) Eq (writeField c content) (writeField c' content)) {s s' : Scope}
    (hs : SameBody Γ.registry layout s s') :
    Parallel Γ.registry body Eq (Body.packFields writeField v fields s) (Body.packFields writeField v fields' s') := by
  induction fields generalizing fields' s s' with
  | nil =>
    cases h
    exact Parallel.pure rfl
  | cons field rest ih =>
    cases h with
    | @cons key c c' _ rest' hc hrest =>
      have hwriteRest := fun key c c' content hmem => hwrite key c c' content (List.mem_cons_of_mem _ hmem)
      have position : Parallel Γ.registry body Eq Packing.position Packing.position := Parallel.scopeless fun _ _ => rfl
      rw [Body.packFields, Body.packFields, hs.exited]
      split
      · exact Parallel.pure rfl
      · refine position.seq fun start => ?_
        refine (Parallel.within (hs.mark key start) (hwrite key c c' _ List.mem_cons_self hc)).bind ?_
        rintro ⟨⟨⟩, t⟩ ⟨⟨⟩, t'⟩ ⟨-, ht⟩
        exact ih hrest hwriteRest ht

theorem parallel_overlay {writeField : Candidate → Value → Packing Unit} {layout : Layout} {fields fields' : Keyed Candidate} (v : Value)
    (h : Keyed.Respelled Γ.registry fields fields')
    (hwrite : ∀ key c c' content, (key, c) ∈ fields → Candidate.Respelled Γ.registry c c' →
      Parallel Γ.registry (some layout) Eq (writeField c content) (writeField c' content)) {s s' : Scope}
    (hs : SameBody Γ.registry layout s s') (region : Bytes) :
    Parallel Γ.registry body Eq (Body.overlayFields writeField v fields s region)
      (Body.overlayFields writeField v fields' s' region) := by
  induction fields generalizing fields' s s' region with
  | nil =>
    cases h
    exact Parallel.pure rfl
  | cons field rest ih =>
    cases h with
    | @cons key c c' _ rest' hc hrest =>
      have hwriteRest := fun key c c' content hmem => hwrite key c c' content (List.mem_cons_of_mem _ hmem)
      rw [Body.overlayFields, Body.overlayFields, hs.exited]
      split
      · exact Parallel.pure rfl
      · split
        · exact ih hrest hwriteRest hs region
        · next content _ =>
          refine (Parallel.within hs (parallel_collect (hwrite key c c' content List.mem_cons_self hc))).bind ?_
          rintro ⟨written, t⟩ ⟨written', t'⟩ ⟨hwritten, ht⟩
          obtain rfl : written = written' := hwritten
          exact ih hrest hwriteRest ht _

end Packing

namespace Codec

variable {Γ : Context}

/-- Writing by another spelling of a schema does the same, where no user-defined kind runs inside. -/
theorem pack_parallel (depth : Nat) {site : Site} {schema' : Schema}
    (plain : Site.Throughout Γ.registry .any (fun site => site.schema.isCustom = false) site)
    (h : Schema.Respelled Γ.registry site.schema schema') (v : Value) :
    Parallel Γ.registry (site.place.map (·.layout)) Eq (pack Γ depth site.schema v) (pack Γ depth schema' v) := by
  induction depth generalizing site schema' v with
  | zero => exact Parallel.stop rfl
  | succ depth ih =>
    obtain ⟨schema, place, isParsed⟩ := site
    cases h with
    | number kind => exact Packing.parallel_onOutput _
    | @array item item' count count' hitem hcount =>
      refine (Packing.parallel_elementsOf v).seq fun items => (Packing.parallel_count hcount items.length).seq fun _ => ?_
      have elements : ∀ n, Parallel Γ.registry (place.map (·.layout)) Eq (Elements.pack Γ (pack Γ depth) item items n)
          (Elements.pack Γ (pack Γ depth) item' items n) := by
        refine fun n => Packing.parallel_elements hitem (fun schema schema' v resolved inside => ?_) items n
        exact ih (plain.of_runs (.item resolved)) inside v
      cases hcount <;> exact elements _
    | string hsize =>
      exact (Packing.parallel_textOf v).seq fun text => (Parallel.ofExcept _).seq fun bytes => Packing.parallel_region hsize bytes
    | cstring hsize =>
      exact (Packing.parallel_textOf v).seq fun text => (Parallel.ofExcept _).seq fun bytes => Packing.parallel_region hsize _
    | @object layout layout' hlayout =>
      show Parallel _ _ Eq (Body.packObject _ layout v) (Body.packObject _ layout' v)
      rw [Body.packObject, Body.packObject, hlayout.checkShape]
      refine (Parallel.ofExcept _).seq fun _ => Packing.parallel_fields v hlayout.entries ?_ (.writing hlayout v)
      intro key c c' content hmem hc
      refine Packing.parallel_candidate hc content fun schema schema' resolved inside => ?_
      obtain ⟨before, after, split⟩ := List.append_of_mem hmem
      exact ih (plain.of_runs (.field split resolved)) inside content
    | @union layout layout' size hlayout =>
      show Parallel _ _ Eq (Body.packUnion _ layout size v) (Body.packUnion _ layout' size v)
      rw [Body.packUnion, Body.packUnion, hlayout.checkShape]
      refine (Parallel.ofExcept _).seq fun _ => Parallel.seq ?_ fun region => Packing.parallel_emit region
      refine Packing.parallel_overlay v hlayout.entries ?_ (.writing hlayout v) _
      intro key c c' content hmem hc
      refine Packing.parallel_candidate hc content fun schema schema' resolved inside => ?_
      obtain ⟨before, after, split⟩ := List.append_of_mem hmem
      exact ih (plain.of_runs (.view split resolved)) inside content
    | enums names hbase =>
      refine (Parallel.resolveNumber hbase fun _ _ => rfl).seq fun kind => ?_
      exact (Parallel.ofExcept _).seq fun n => Packing.parallel_onOutput _
    | depend field selector =>
      refine (Parallel.sibling "depend" field).seq fun w => ?_
      cases selects : selector.select w with
      | error fault => exact Parallel.stop rfl
      | ok c =>
        refine Packing.parallel_candidate (.same c) v fun schema schema' resolved inside => ?_
        exact ih (plain.of_runs (.selected trivial selects resolved)) inside v
    | link field hitem =>
      refine Packing.parallel_link hitem ?_ ?_ v
      · intro layout counter schema schema' n hbody found resolved inside
        obtain ⟨place, rfl, rfl⟩ := Option.map_eq_some_iff.mp hbody
        exact ih (plain.of_runs (.counter found resolved)) inside _
      · intro schema schema' v resolved inside
        exact ih (plain.of_runs (.linked resolved)) inside v
    | computed operator w => exact Parallel.pure rfl
    | exit => exact Parallel.exitScope "exit"
    | parse encode decode hinner hsize =>
      refine Parallel.seq (Packing.parallel_collect ?_) fun plain => (Parallel.ofExcept _).seq fun encoded =>
        Packing.parallel_region hsize encoded
      refine Packing.parallel_candidate hinner v fun schema schema' resolved inside => ?_
      exact ih (plain.of_runs (.inner resolved)) inside v
    | custom extension => exact absurd plain.here (by simp [Schema.isCustom])

end Codec

namespace Registry

/-- Candidates that stand for the same but for spellings are interchangeable, where no user-defined kind runs inside: both succeed,
with the same bytes behind any output, or with the same value and the same position in the input, or both fail with the same fault
but for words. -/
theorem respelled_transparent (r : Registry) {c c' : Candidate} (respelled : Candidate.Respelled r c c')
    (plain : ∀ schema, r.resolve c = .ok schema → Site.Throughout r .any (fun site => site.schema.isCustom = false) (.top schema))
    (options : Options) :
    (∀ v out, (Codec.packCandidate ⟨r, options⟩ c v ⟨out, none⟩).mapError Stop.bare =
      (Codec.packCandidate ⟨r, options⟩ c' v ⟨out, none⟩).mapError Stop.bare) ∧
    (∀ cursor, (Codec.unpackCandidate ⟨r, options⟩ c ⟨cursor, none⟩).mapError Stop.bare =
      (Codec.unpackCandidate ⟨r, options⟩ c' ⟨cursor, none⟩).mapError Stop.bare) ∧
    (∀ v, (r.packWith c v options).mapError Stop.bare = (r.packWith c' v options).mapError Stop.bare) ∧
    ∀ data, (r.unpackWith c data options).mapError Stop.bare = (r.unpackWith c' data options).mapError Stop.bare := by
  have packed : ∀ v out, Matched (SameAfter r none Eq) (Codec.packCandidate ⟨r, options⟩ c v ⟨out, none⟩)
      (Codec.packCandidate ⟨r, options⟩ c' v ⟨out, none⟩) := by
    intro v out
    refine Packing.parallel_candidate (Γ := ⟨r, options⟩) respelled v ?_ out none none .outside
    intro schema schema' resolved inside
    exact Codec.pack_parallel (Γ := ⟨r, options⟩) _ (plain schema resolved) inside v
  have unpacked : ∀ cursor, Matched (SameAfter r none Eq) (Codec.unpackCandidate ⟨r, options⟩ c ⟨cursor, none⟩)
      (Codec.unpackCandidate ⟨r, options⟩ c' ⟨cursor, none⟩) := by
    intro cursor
    refine Unpacking.parallel_candidate (Γ := ⟨r, options⟩) respelled ?_ cursor none none .outside
    intro schema schema' resolved inside
    exact Codec.unpack_parallel (Γ := ⟨r, options⟩) _ (plain schema resolved) inside
  refine ⟨fun v out => ?_, fun cursor => ?_, fun v => ?_, fun data => ?_⟩
  · exact ((packed v out).imp fun _ _ meets => meets.eq).mapError_bare
  · exact ((unpacked cursor).imp fun _ _ meets => meets.eq).mapError_bare
  · exact ((packed v #[]).map fun _ _ meets => meets.medium.symm).mapError_bare
  · exact ((unpacked (Cursor.ofBytes data)).map fun _ _ meets => meets.value).mapError_bare

end Registry

namespace Packet

/-- The fields of a packet, spelled by aliases and preset names. -/
def named : Layout := .named [("count", .name "byte"), ("words", .link "count" (.name "word")), ("name", .name "pchar")]

theorem respelled : Candidate.Respelled Registry.standard (.schema schema) (.fields named) := by
  have byte : Candidate.Respelled Registry.standard (.number .uint8) (.name "byte") := .resolved rfl rfl (.number .uint8)
  have word : Candidate.Respelled Registry.standard (.number .uint16) (.name "word") := .resolved rfl rfl (.number .uint16)
  have words : Candidate.Respelled Registry.standard (.link "count" (.number .uint16)) (.link "count" (.name "word")) :=
    .resolved rfl rfl (.link "count" word)
  have text : Candidate.Respelled Registry.standard (.cstring .auto) (.name "pchar") := .resolved rfl rfl (.cstring .auto)
  exact .resolved rfl rfl (.object (.named (.cons byte (.cons words (.cons text .nil)))))

theorem respelled_transparent_packet :
    (Registry.standard.packWith (.schema schema) value .littleEndian).mapError Stop.bare =
        (Registry.standard.packWith (.fields named) value .littleEndian).mapError Stop.bare ∧
      (Registry.standard.unpackWith (.schema schema) bytes .littleEndian).mapError Stop.bare =
        (Registry.standard.unpackWith (.fields named) bytes .littleEndian).mapError Stop.bare := by
  have plain : ∀ found, Registry.standard.resolve (.schema schema) = .ok found →
      Site.Throughout Registry.standard .any (fun site => site.schema.isCustom = false) (.top found) := by
    rintro _ ⟨⟩
    exact throughout rfl (fun _ => rfl) (fun _ => rfl) rfl fun _ => rfl
  obtain ⟨-, -, packed, unpacked⟩ := Registry.respelled_transparent Registry.standard respelled plain .littleEndian
  exact ⟨packed value, unpacked bytes⟩

end Packet

end WireLayout
