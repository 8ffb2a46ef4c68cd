import WireLayout.Proofs.Counting
import WireLayout.Proofs.NullPadding
import WireLayout.Proofs.Reordering

/-!
# The order of pairs does not matter

Two values that differ in the order of the pairs of records are packed to the same bytes, or both are not packed (`Oblivious`). Fields are
written in the order of their layout, and what a field writes is looked up by its key, so that a record is only a map to all that runs. A
dependent field may be chosen by a record, which cases compare without regard to order; but a function may look at the order, and so may a
user-defined kind, and neither must run inside.
-/

namespace WireLayout

/-- Two outcomes are related, or both are failures that differ in what they quote only. -/
inductive Agreed {ρ : Type} (R : ρ → ρ → Prop) : Except Stop ρ → Except Stop ρ → Prop where
  | ok {a b : ρ} (h : R a b) : Agreed R (.ok a) (.ok b)
  | stop {stop stop' : Stop} (h : stop.unquoted = stop'.unquoted) : Agreed R (.error stop) (.error stop')

/-! ## Bodies but for the order of pairs -/

/-- Two bodies of one layout that are the same but for the order of pairs in their values. -/
structure Scope.Reordered (layout : Layout) (s s' : Scope) : Prop where
  body : s.layout = layout
  body' : s'.layout = layout
  value : s.value.Reordered s'.value
  offsets : s'.offsets = s.offsets
  exited : s'.isExited = s.isExited

namespace Scope.Reordered

variable {layout : Layout} {s s' : Scope}

theorem exit (h : Scope.Reordered layout s s') : Scope.Reordered layout s.exit s'.exit := { h with exited := rfl }

theorem mark (h : Scope.Reordered layout s s') (key : String) (offset : Nat) :
    Scope.Reordered layout (s.mark key offset) (s'.mark key offset) :=
  { h with offsets := by simp only [Scope.mark, h.offsets] }

theorem writing (layout : Layout) {v v' : Value} (h : v.Reordered v') :
    Scope.Reordered layout (.writing layout v) (.writing layout v') := ⟨rfl, rfl, h, rfl, rfl⟩

theorem fieldSchema? (h : Scope.Reordered layout s s') (field : String) : s'.fieldSchema? field = s.fieldSchema? field := by
  rw [Scope.fieldSchema?, h.body', Scope.fieldSchema?, h.body]

theorem offset? (h : Scope.Reordered layout s s') (field : String) : s'.offset? field = s.offset? field := by
  rw [Scope.offset?, h.offsets, Scope.offset?]

end Scope.Reordered

/-- What is around two runs, by its layout. -/
inductive AroundReordered : Option Layout → Option Scope → Option Scope → Prop where
  | outside : AroundReordered none none none
  | inside {layout : Layout} {s s' : Scope} (h : Scope.Reordered layout s s') : AroundReordered (some layout) (some s) (some s')

/-- What two runs lead to: related results, the same output, and the same around but for the order of pairs. -/
structure SameOutput {α : Type} (body : Option Layout) (V : α → α → Prop) (a b : α × WalkState Bytes) : Prop where
  value : V a.1 b.1
  output : b.2.medium = a.2.medium
  around : AroundReordered body a.2.scope b.2.scope

/-- Two steps do the same in bodies that are the same but for the order of pairs. -/
def Oblivious {α : Type} (body : Option Layout) (V : α → α → Prop) (step step' : Packing α) : Prop :=
  ∀ out scope scope', AroundReordered body scope scope' → Agreed (SameOutput body V) (step ⟨out, scope⟩) (step' ⟨out, scope'⟩)

namespace Oblivious

variable {α β : Type} {Γ : Context} {body : Option Layout} {V : α → α → Prop} {W : β → β → Prop}

theorem bind {step step' : Packing α} {next next' : α → Packing β} (h : Oblivious body V step step')
    (hnext : ∀ a b, V a b → Oblivious body W (next a) (next' b)) : Oblivious body W (step >>= next) (step' >>= next') := by
  intro out scope scope' around
  have first := h out scope scope' around
  rw [Walk.bind_apply, Walk.bind_apply]
  generalize step ⟨out, scope⟩ = left at first
  generalize step' ⟨out, scope'⟩ = right at first
  cases first with
  | stop h => exact .stop h
  | @ok a b meets =>
    obtain ⟨a, out₁, scope₁⟩ := a
    obtain ⟨b, out₂, scope₂⟩ := b
    obtain rfl : out₂ = out₁ := meets.output
    exact hnext a b meets.value out₂ scope₁ scope₂ meets.around

/-- A sequence of which the second step goes on from the same result. -/
theorem seq {step step' : Packing α} {next next' : α → Packing β} (h : Oblivious body Eq step step')
    (hnext : ∀ a, Oblivious body W (next a) (next' a)) : Oblivious body W (step >>= next) (step' >>= next') := by
  refine h.bind ?_
  rintro a b rfl
  exact hnext a

theorem pure {a b : α} (h : V a b) : Oblivious body V (Pure.pure a) (Pure.pure b) := fun _ _ _ around => .ok ⟨h, rfl, around⟩

theorem stop {stop stop' : Stop} (h : stop.unquoted = stop'.unquoted) :
    Oblivious body V (fun _ => .error stop) (fun _ => .error stop') := fun _ _ _ _ => .stop h

/-- A step that does not look at the body around does the same twice. -/
theorem scopeless {step : Packing α} (h : Walk.Scopeless step) : Oblivious body Eq step step := by
  intro out scope scope' around
  rw [h out scope, h out scope']
  cases step ⟨out, none⟩ with
  | error stop => exact .stop rfl
  | ok result => exact .ok ⟨rfl, rfl, around⟩

theorem ofExcept (result : Except Fault α) : Oblivious body Eq (Walk.ofExcept result) (Walk.ofExcept result) :=
  scopeless (.ofExcept result)

theorem exitScope (kind : String) : Oblivious body Eq (Walk.exitScope kind) (Walk.exitScope kind) := by
  intro out scope scope' around
  cases around with
  | outside => exact .stop rfl
  | inside h => exact .ok ⟨rfl, rfl, .inside h.exit⟩

theorem sibling (kind field : String) : Oblivious body Value.Reordered (Walk.sibling kind field) (Walk.sibling kind field) := by
  intro out scope scope' around
  cases around with
  | outside => exact .stop rfl
  | @inside layout s s' h =>
    have found := h.value.get? field
    simp only [Walk.sibling_eq_onScope, Walk.onScope, Scope.field?]
    generalize s.value.get? field = left at found
    generalize s'.value.get? field = right at found
    cases found with
    | none => exact .stop rfl
    | some found => exact .ok ⟨found, rfl, .inside h⟩

/-- Steps in bodies inside, which are given back behind them. -/
theorem within {layout : Layout} {s s' : Scope} (hs : Scope.Reordered layout s s') {step step' : Packing α}
    (h : Oblivious (some layout) V step step') :
    Oblivious body (fun a b => V a.1 b.1 ∧ Scope.Reordered layout a.2 b.2) (Walk.within s step) (Walk.within s' step') := by
  intro out scope scope' around
  have inside := h out (some s) (some s') (.inside hs)
  simp only [Walk.within]
  generalize step ⟨out, some s⟩ = left at inside
  generalize step' ⟨out, some s'⟩ = right at inside
  cases inside with
  | stop h => exact .stop h
  | @ok a b meets =>
    obtain ⟨a, out₁, scope₁⟩ := a
    obtain ⟨b, out₂, scope₂⟩ := b
    cases meets.around with
    | inside hinner => exact .ok ⟨⟨meets.value, hinner⟩, meets.output, around⟩

/-- Steps on an output of their own write the same there. -/
theorem collect {step step' : Packing Unit} (h : Oblivious body Eq step step') :
    Oblivious body Eq (Packing.collect step) (Packing.collect step') := by
  intro out scope scope' around
  have apart := h #[] scope scope' around
  simp only [Packing.collect, Walk.bind_apply, Walk.aside]
  generalize step ⟨#[], scope⟩ = left at apart
  generalize step' ⟨#[], scope'⟩ = right at apart
  cases apart with
  | stop h => exact .stop h
  | ok meets => exact .ok ⟨meets.output.symm, rfl, meets.around⟩

theorem resolve {c : Candidate} {next next' : Schema → Packing β}
    (hnext : ∀ schema, Γ.registry.resolve c = .ok schema → Oblivious body W (next schema) (next' schema)) :
    Oblivious body W (Walk.resolve Γ c >>= next) (Walk.resolve Γ c >>= next') := by
  cases hc : Γ.registry.resolve c with
  | ok schema =>
    rw [Walk.resolve_bind_ok hc, Walk.resolve_bind_ok hc]
    exact hnext schema hc
  | error stop =>
    rw [Walk.resolve_bind_error hc, Walk.resolve_bind_error hc]
    exact Oblivious.stop rfl

end Oblivious

/-! ## Writing -/

namespace Packing

variable {Γ : Context} {body : Option Layout} {run : Schema → Value → Packing Unit} {v v' : Value}

theorem oblivious_number (h : v.Reordered v') (kind : Number) : Oblivious body Eq (number Γ kind v) (number Γ kind v') := by
  have same : number Γ kind v' = number Γ kind v := by
    simp only [number, Number.pack, h.wordOf]
  rw [same]
  exact Oblivious.scopeless (scopeless_onOutput _)

theorem oblivious_candidate {c : Candidate}
    (hrun : ∀ schema, Γ.registry.resolve c = .ok schema → Oblivious body Eq (run schema v) (run schema v')) :
    Oblivious body Eq (candidate Γ run c v) (candidate Γ run c v') := Oblivious.resolve hrun

theorem oblivious_text (h : v.Reordered v') (size : Count) : Oblivious body Eq (Text.pack Γ size v) (Text.pack Γ size v') := by
  have same : Text.pack Γ size v' = Text.pack Γ size v := by rw [Text.pack, h.textOf, Text.pack]
  rw [same]
  exact Oblivious.scopeless (composable_scopeless.text size v)

theorem oblivious_terminatedText (h : v.Reordered v') (size : Count) :
    Oblivious body Eq (Text.packTerminated Γ size v) (Text.packTerminated Γ size v') := by
  have same : Text.packTerminated Γ size v' = Text.packTerminated Γ size v := by
    rw [Text.packTerminated, h.textOf, Text.packTerminated]
  rw [same]
  exact Oblivious.scopeless (composable_scopeless.terminatedText size v)

theorem oblivious_enumeration (h : v.Reordered v') (names : List (String × Int64)) (base : Candidate) :
    Oblivious body Eq (Enumeration.pack Γ names base v) (Enumeration.pack Γ names base v') := by
  have same : Enumeration.pack Γ names base v' = Enumeration.pack Γ names base v := by
    simp only [Enumeration.pack, h.numberOf]
  rw [same]
  exact Oblivious.scopeless (composable_scopeless.enumeration names base v)

theorem oblivious_elementsOf (h : v.Reordered v') :
    Oblivious body Value.ReorderedItems (Elements.ofValue v) (Elements.ofValue v') := by
  cases h with
  | null => exact Oblivious.pure .nil
  | list inside => exact Oblivious.pure inside
  | _ => exact Oblivious.stop rfl

theorem oblivious_packEach {step : Value → Packing Unit} (h : ∀ v v', v.Reordered v' → Oblivious body Eq (step v) (step v'))
    (count : Nat) {items items' : List Value} (inside : Value.ReorderedItems items items') :
    Oblivious body Eq (Elements.packEach step count items) (Elements.packEach step count items') := by
  induction count generalizing items items' with
  | zero => exact Oblivious.pure rfl
  | succ count ih =>
    rw [Elements.packEach_succ, Elements.packEach_succ]
    exact (h _ _ inside.head).seq fun _ => ih inside.tail

theorem oblivious_elements {item : Candidate}
    (hrun : ∀ schema v v', Γ.registry.resolve item = .ok schema → v.Reordered v' → Oblivious body Eq (run schema v) (run schema v'))
    {items items' : List Value} (inside : Value.ReorderedItems items items') (count : Nat) :
    Oblivious body Eq (Elements.pack Γ run item items count) (Elements.pack Γ run item items' count) := by
  cases hitem : Γ.registry.resolve item with
  | error stop =>
    rw [Elements.pack, Walk.resolve_bind_error hitem, Elements.pack, Walk.resolve_bind_error hitem]
    exact Oblivious.stop rfl
  | ok schema =>
    rw [Elements.pack_eq_packEach hitem, Elements.pack_eq_packEach hitem]
    refine oblivious_packEach (fun v v' h => ?_) count inside
    cases schema with
    | number kind => exact oblivious_number h kind
    | _ => exact hrun _ v v' hitem h

theorem oblivious_array {item : Candidate}
    (hrun : ∀ schema v v', Γ.registry.resolve item = .ok schema → v.Reordered v' → Oblivious body Eq (run schema v) (run schema v'))
    (h : v.Reordered v') (count : Count) :
    Oblivious body Eq (Elements.packArray Γ run item count v) (Elements.packArray Γ run item count v') := by
  refine (oblivious_elementsOf h).bind fun items items' inside => ?_
  rw [inside.length_eq]
  exact (Oblivious.scopeless (composable_scopeless.count count _)).seq fun _ => oblivious_elements hrun inside _

/-- The bytes of a count do not depend on the body. -/
theorem oblivious_countBytes {counter : Candidate} (n : Nat)
    (hrun : ∀ schema, Γ.registry.resolve counter = .ok schema → Oblivious body Eq (run schema (.ofCount n)) (run schema (.ofCount n))) :
    Oblivious body Eq (Sibling.countBytes Γ run counter n) (Sibling.countBytes Γ run counter n) := by
  refine Oblivious.resolve fun schema hschema => ?_
  cases schema with
  | number kind => exact (Oblivious.scopeless (scopeless_onOutput _)).collect
  | _ => exact (hrun _ hschema).collect

theorem oblivious_link {field : String} {item : Candidate}
    (hcount : ∀ layout counter schema n, body = some layout → layout.get? field = some counter → Γ.registry.resolve counter = .ok schema →
      Oblivious body Eq (run schema (.ofCount n)) (run schema (.ofCount n)))
    (hrun : ∀ schema v v', Γ.registry.resolve item = .ok schema → v.Reordered v' → Oblivious body Eq (run schema v) (run schema v'))
    (h : v.Reordered v') : Oblivious body Eq (Sibling.packLink Γ run field item v) (Sibling.packLink Γ run field item v') := by
  refine (oblivious_elementsOf h).bind fun items items' inside out scope scope' around => ?_
  rw [Walk.bind_apply, Walk.bind_apply]
  cases around with
  | outside => exact .stop rfl
  | @inside layout s s' hs =>
    simp only [Walk.requireScope, hs.fieldSchema?, hs.offset?, inside.length_eq]
    cases found : s.fieldSchema? field with
    | none => exact .stop rfl
    | some counter =>
      cases s.offset? field with
      | none => exact .stop rfl
      | some offset =>
        have inLayout : layout.get? field = some counter := by rw [← hs.body]; exact found
        have bytes := oblivious_countBytes items.length fun schema resolved => hcount layout counter schema _ rfl inLayout resolved
        refine bytes.seq (fun count => ?_) out _ _ (.inside hs)
        exact (Oblivious.scopeless (scopeless_onOutput _)).seq fun _ => oblivious_elements hrun inside _

/-- Fields are written in the order of the layout, whatever order the value has them in. -/
theorem oblivious_fields {write : Candidate → Value → Packing Unit} {layout : Layout} {fields : Keyed Candidate}
    (hwrite : ∀ key c w w', (key, c) ∈ fields → w.Reordered w' → Oblivious (some layout) Eq (write c w) (write c w'))
    (h : v.Reordered v') {s s' : Scope} (hs : Scope.Reordered layout s s') :
    Oblivious body Eq (Body.packFields write v fields s) (Body.packFields write v' fields s') := by
  induction fields generalizing s s' with
  | nil => exact Oblivious.pure rfl
  | cons field rest ih =>
    obtain ⟨key, c⟩ := field
    have hrest := fun key c w w' hmem => hwrite key c w w' (List.mem_cons_of_mem _ hmem)
    have position : Oblivious body Eq Packing.position Packing.position := Oblivious.scopeless fun _ _ => rfl
    rw [Body.packFields, Body.packFields, hs.exited]
    split
    · exact Oblivious.pure rfl
    · refine position.seq fun start => ?_
      refine (Oblivious.within (hs.mark key start) (hwrite key c _ _ List.mem_cons_self (h.getD_null key))).bind ?_
      rintro ⟨⟨⟩, t⟩ ⟨⟨⟩, t'⟩ ⟨-, ht⟩
      exact ih hrest ht

/-- A field of a union is there or not, whatever order the value has its fields in. -/
theorem oblivious_overlay {write : Candidate → Value → Packing Unit} {layout : Layout} {fields : Keyed Candidate}
    (hwrite : ∀ key c w w', (key, c) ∈ fields → w.Reordered w' → Oblivious (some layout) Eq (write c w) (write c w'))
    (h : v.Reordered v') {s s' : Scope} (hs : Scope.Reordered layout s s') (region : Bytes) :
    Oblivious body Eq (Body.overlayFields write v fields s region) (Body.overlayFields write v' fields s' region) := by
  induction fields generalizing s s' region with
  | nil => exact Oblivious.pure rfl
  | cons field rest ih =>
    obtain ⟨key, c⟩ := field
    have hrest := fun key c w w' hmem => hwrite key c w w' (List.mem_cons_of_mem _ hmem)
    rw [Body.overlayFields, Body.overlayFields, hs.exited]
    split
    · exact Oblivious.pure rfl
    · have found := h.get? key
      generalize v.get? key = left at found
      generalize v'.get? key = right at found
      cases found with
      | none => exact ih hrest hs region
      | @some content content' found =>
        refine (Oblivious.within hs (hwrite key c content content' List.mem_cons_self found).collect).bind ?_
        rintro ⟨written, t⟩ ⟨written', t'⟩ ⟨same, ht⟩
        obtain rfl : written = written' := same
        exact ih hrest ht _

end Packing

/-- Whether a schema may see in which order a record has its pairs: one that is defined by the user, or chosen by a function. -/
def Schema.seesOrder : Schema → Bool
  | custom _ | depend _ (.function _) => true
  | _ => false

theorem Schema.isCustom_of_seesOrder {schema : Schema} (h : schema.seesOrder = false) : schema.isCustom = false := by
  cases schema with
  | custom extension => cases h
  | _ => rfl

namespace Codec

open Packing

variable {Γ : Context}

/-- Every schema writes the same for two values but for the order of pairs, in bodies that are the same but for that order. -/
theorem pack_oblivious (depth : Nat) {site : Site}
    (blind : Site.Throughout Γ.registry .any (fun site => site.schema.seesOrder = false) site) {v v' : Value} (h : v.Reordered v') :
    Oblivious (site.place.map (·.layout)) Eq (pack Γ depth site.schema v) (pack Γ depth site.schema v') := by
  induction depth generalizing site v v' with
  | zero => exact Oblivious.stop rfl
  | succ depth ih =>
    obtain ⟨schema, place, isParsed⟩ := site
    cases schema with
    | number kind => exact oblivious_number h kind
    | array item count =>
      refine oblivious_array (fun schema w w' resolved hw => ?_) h count
      exact ih (blind.of_runs (.item resolved)) hw
    | string size => exact oblivious_text h size
    | cstring size => exact oblivious_terminatedText h size
    | object layout =>
      show Oblivious _ Eq (Body.packObject _ layout v) (Body.packObject _ layout v')
      rw [Body.packObject, Body.packObject, h.checkShape]
      refine (Oblivious.ofExcept _).seq fun _ => oblivious_fields (fun key c w w' hmem hw => ?_) h (.writing layout h)
      refine oblivious_candidate fun schema resolved => ?_
      obtain ⟨before, after, split⟩ := List.append_of_mem hmem
      exact ih (blind.of_runs (.field split resolved)) hw
    | union layout size =>
      show Oblivious _ Eq (Body.packUnion _ layout size v) (Body.packUnion _ layout size v')
      rw [Body.packUnion, Body.packUnion, h.checkShape]
      refine (Oblivious.ofExcept _).seq fun _ => Oblivious.seq ?_ fun region =>
        Oblivious.scopeless (composable_scopeless.emit region)
      refine oblivious_overlay (fun key c w w' hmem hw => ?_) h (.writing layout h) _
      refine oblivious_candidate fun schema resolved => ?_
      obtain ⟨before, after, split⟩ := List.append_of_mem hmem
      exact ih (blind.of_runs (.view split resolved)) hw
    | enums names base => exact oblivious_enumeration h names base
    | depend field selector =>
      cases selector with
      | function choose => exact absurd blind.here (by simp [Schema.seesOrder])
      | application builder arguments =>
        refine (Oblivious.sibling "depend" field).bind fun w w' hw => ?_
        have chosen := Selector.select_reordered hw builder arguments
        cases selects : (Selector.application builder arguments).select w <;>
          cases selects' : (Selector.application builder arguments).select w' <;> rw [selects, selects'] at chosen
        · cases chosen with
          | fault same => exact Oblivious.stop (congrArg Stop.fault same)
        · cases chosen
        · cases chosen
        · cases chosen with
          | same c =>
            refine oblivious_candidate fun schema resolved => ?_
            exact ih (blind.of_runs (.selected trivial selects resolved)) h
          -- A computed field writes nothing, whatever it computes.
          | computed operator =>
            cases depth with
            | zero => exact Oblivious.stop rfl
            | succ depth => exact Oblivious.pure rfl
    | link field item =>
      refine oblivious_link ?_ (fun schema w w' resolved hw => ih (blind.of_runs (.linked resolved)) hw) h
      intro layout counter schema n hbody found resolved
      obtain ⟨place, rfl, rfl⟩ := Option.map_eq_some_iff.mp hbody
      exact ih (blind.of_runs (.counter found resolved)) (.int _)
    | computed operator w => exact Oblivious.pure rfl
    | exit => exact Oblivious.exitScope "exit"
    | parse encode decode inner size =>
      refine Oblivious.seq (Oblivious.collect ?_) fun plain => (Oblivious.ofExcept _).seq fun encoded =>
        Oblivious.scopeless (composable_scopeless.region size encoded)
      refine oblivious_candidate fun schema resolved => ?_
      exact ih (blind.of_runs (.inner resolved)) h
    | custom extension => exact absurd blind.here (by simp [Schema.seesOrder])

/-- What is packed by one value is packed by the other, to the same bytes. -/
theorem packed_oblivious (depth : Nat) {schema : Schema}
    (blind : Site.Throughout Γ.registry .any (fun site => site.schema.seesOrder = false) (.top schema)) {v v' : Value}
    (h : v.Reordered v') : Agreed Eq (packed Γ depth schema v) (packed Γ depth schema v') := by
  have runs := pack_oblivious depth blind h #[] none none .outside
  rw [packed, packed]
  change Agreed _ (pack Γ depth schema v ⟨#[], none⟩) (pack Γ depth schema v' ⟨#[], none⟩) at runs
  generalize pack Γ depth schema v ⟨#[], none⟩ = left at runs
  generalize pack Γ depth schema v' ⟨#[], none⟩ = right at runs
  cases runs with
  | ok meets => exact .ok meets.output.symm
  | stop h => exact .stop h

theorem packed_of_reordered {depth : Nat} {schema : Schema}
    (blind : Site.Throughout Γ.registry .any (fun site => site.schema.seesOrder = false) (.top schema)) {v v' : Value}
    (h : v.Reordered v') {bytes : Bytes} (hpacked : packed Γ depth schema v' = .ok bytes) : packed Γ depth schema v = .ok bytes := by
  have agreed := packed_oblivious depth blind h
  rw [hpacked] at agreed
  generalize packed Γ depth schema v = left at agreed
  cases agreed with
  | ok eq => rw [eq]

/-! ## The order on the wire -/

/-- Fields of a body only add to the output, and leave its layout and the body around as they are. -/
theorem packFirst_grows {depth : Nat} {layout : Layout}
    (plain : Site.Throughout Γ.registry .any (fun site => site.schema.isCustom = false) (.top (.object layout))) {v : Value}
    {entries : Keyed Candidate} (among : ∀ entry ∈ entries, entry ∈ layout.entries) {s : Scope} (hlayout : s.layout = layout)
    {out : Bytes} {around : Option Scope} {r : Scope × WalkState Bytes}
    (h : Body.packFirst (candidate Γ (pack Γ depth)) v entries s ⟨out, around⟩ = .ok r) :
    out.size ≤ r.2.medium.size ∧ r.1.layout = layout ∧ r.2.scope = around := by
  induction entries generalizing s out with
  | nil =>
    cases h
    exact ⟨Nat.le_refl _, hlayout, rfl⟩
  | cons entry rest ih =>
    obtain ⟨key, c⟩ := entry
    by_cases hexit : s.isExited = true
    · rw [Body.packFirst_exited hexit] at h
      cases h
      exact ⟨Nat.le_refl _, hlayout, rfl⟩
    · rw [Body.packFirst_cons (by simpa using hexit)] at h
      cases hc : Γ.registry.resolve c with
      | error stop =>
        rw [candidate, Walk.resolve_bind_error hc] at h
        cases h
      | ok schema =>
        rw [candidate_eq hc] at h
        split at h
        · next out₁ inner hfield =>
          obtain ⟨pre, post, split⟩ := List.append_of_mem (among _ List.mem_cons_self)
          have inLayout : (s.mark key out.size).layout = layout := hlayout
          obtain ⟨grows, fires, left⟩ := pack_keeps (plain.of_runs (.field split hc)) inLayout hfield
          dsimp only at grows left
          subst left
          have inLayout' : ((s.mark key out.size).leave fires).layout = layout := hlayout
          obtain ⟨growsOn, kept⟩ := ih (fun entry hentry => among entry (List.mem_cons_of_mem _ hentry)) inLayout' h
          exact ⟨Nat.le_trans grows growsOn, kept⟩
        · cases h

/-- The first fields of a layout are written in front of the others. -/
theorem packObject_in_order {depth : Nat} {layout : Layout}
    (plain : Site.Throughout Γ.registry .any (fun site => site.schema.isCustom = false) (.top (.object layout)))
    {first rest : Keyed Candidate} (split : layout.entries = first ++ rest) {v : Value} {bytes : Bytes}
    (h : packed Γ (depth + 1) (.object layout) v = .ok bytes) :
    ∃ scope front, Body.packFirst (candidate Γ (pack Γ depth)) v first (.writing layout v) ⟨#[], none⟩ = .ok (scope, ⟨front, none⟩) ∧
      Body.packFields (candidate Γ (pack Γ depth)) v rest scope ⟨front, none⟩ = .ok ((), ⟨bytes, none⟩) ∧ front.size ≤ bytes.size := by
  obtain ⟨last, hrun⟩ := packed_eq_ok.mp h
  obtain ⟨-, scope, ⟨front, around⟩, hfirst, hrest⟩ := (Body.packObject_eq_ok split).mp hrun
  obtain ⟨-, inLayout, rfl⟩ := packFirst_grows plain (fun entry hmem => split ▸ List.mem_append_left _ hmem) rfl hfirst
  dsimp only at inLayout
  rw [Body.packFields_eq] at hrest
  obtain ⟨scope', ⟨out, around⟩, hlast, ⟨⟩⟩ := Walk.bind_eq_ok.mp hrest
  obtain ⟨grows, -, rfl⟩ := packFirst_grows plain (fun entry hmem => split ▸ List.mem_append_right _ hmem) inLayout hlast
  refine ⟨scope, front, hfirst, ?_, grows⟩
  rw [Body.packFields_eq, Walk.bind_apply, hlast]
  rfl

end Codec

namespace Registry

/-- Only the map from keys to values matters. Where no user-defined kind and no function that chooses schemas runs inside, two values
that differ in the order of the pairs of records, at any depth, are packed to the same bytes, or both are not packed, for reasons that
differ in what they quote only. What decides the order of the fields of an object is its layout: however it is cut in two, the fields in
front are written first, and the others behind what these wrote. -/
theorem packWith_reordered (r : Registry) (options : Options) {c : Candidate}
    (blind : ∀ schema, r.resolve c = .ok schema → Site.Throughout r .any (fun site => site.schema.seesOrder = false) (.top schema)) :
    (∀ v v' : Value, v.Reordered v' → Agreed Eq (r.packWith c v options) (r.packWith c v' options)) ∧
    ∀ layout first rest v bytes, r.resolve c = .ok (.object layout) → layout.entries = first ++ rest → r.packWith c v options = .ok bytes →
      ∃ depth scope front,
        Body.packFirst (Packing.candidate ⟨r, options⟩ (Codec.pack ⟨r, options⟩ depth)) v first (.writing layout v) ⟨#[], none⟩ =
          .ok (scope, ⟨front, none⟩) ∧
        Body.packFields (Packing.candidate ⟨r, options⟩ (Codec.pack ⟨r, options⟩ depth)) v rest scope ⟨front, none⟩ =
          .ok ((), ⟨bytes, none⟩) ∧
        front.size ≤ bytes.size := by
  constructor
  · intro v v' h
    cases resolved : r.resolve c with
    | error stop =>
      have fails : ∀ w, r.packWith c w options = .error stop := by
        intro w
        rw [packWith, Codec.packCandidate, Packing.candidate, Walk.resolve_bind_error resolved]
        rfl
      rw [fails, fails]
      exact .stop rfl
    | ok schema =>
      rw [Codec.packWith_of_resolve resolved, Codec.packWith_of_resolve resolved]
      exact Codec.packed_oblivious _ (blind schema resolved) h
  · intro layout first rest v bytes resolved split packed
    rw [Codec.packWith_of_resolve resolved] at packed
    generalize r.limits.depth = depth at packed
    cases depth with
    | zero => cases packed
    | succ depth =>
      have plain := (blind _ resolved).mono fun site => Schema.isCustom_of_seesOrder
      exact ⟨depth, Codec.packObject_in_order plain split packed⟩

end Registry

/-! ## A sample -/

namespace Variant

/-- A version of two numbers. -/
def version : Layout := .named [("major", .number .uint8), ("minor", .number .uint8)]

/-- For version 1.2, the data is a word. -/
def selector : Selector := .cases [(.record [("major", .int 1), ("minor", .int 2)], .number .uint16)]

def layout : Layout := .named [("version", .object version), ("data", .depend "version" selector)]

def value : Value := .record [("version", .record [("major", .int 1), ("minor", .int 2)]), ("data", .int 7)]

def value' : Value := .record [("data", .int 7), ("version", .record [("minor", .int 2), ("major", .int 1)])]

theorem reordered : value.Reordered value' := by
  have versions : Value.Reordered (.record [("major", .int 1), ("minor", .int 2)]) (.record [("minor", .int 2), ("major", .int 1)]) :=
    .record (by decide) (.cons "major" (.int 1) (.cons "minor" (.int 2) .nil)) (.swap _ _ _)
  exact .record (by decide) (.cons "version" versions (.cons "data" (.int 7) .nil)) (.swap _ _ _)

theorem blind : Site.Throughout Registry.standard .any (fun site => site.schema.seesOrder = false) (.top (.object layout)) := by
  refine Site.throughout_object rfl ?_
  intro i key c schema hi hc
  match i with
  | 0 =>
    cases hi
    cases hc
    refine Site.throughout_object rfl ?_
    intro i key c schema hi hc
    match i with
    | 0 | 1 =>
      cases hi
      cases hc
      exact Site.throughout_number rfl
    | i + 2 => cases hi
  | 1 =>
    cases hi
    cases hc
    refine Site.throughout_intro rfl ?_
    intro site' hr
    cases hr with
    | @selected _ _ v c schema _ _ _ selects resolved =>
      -- Only the word of the one case can be chosen.
      change (Builder.casesOf _ v >>= fun c => pure (Applied.complete c)) >>= Applied.candidate = .ok c at selects
      rw [Builder.casesOf, List.find?_singleton] at selects
      split at selects
      · next pair found =>
        split at found <;> cases found
        cases selects
        cases resolved
        exact Site.throughout_number rfl
      · cases selects
  | i + 2 => cases hi

/-- The version is found whatever order its numbers stand in, and written in front. -/
theorem packWith_reordered_version :
    value.Reordered value' ∧
      (∀ schema, Registry.standard.resolve (.object layout) = .ok schema →
        Site.Throughout Registry.standard .any (fun site => site.schema.seesOrder = false) (.top schema)) ∧
      Registry.standard.packWith (.object layout) value .littleEndian = .ok #[1, 2, 7, 0] ∧
      Registry.standard.packWith (.object layout) value' .littleEndian = .ok #[1, 2, 7, 0] ∧
      ∃ depth scope front,
        Body.packFirst (Packing.candidate ⟨.standard, .littleEndian⟩ (Codec.pack ⟨.standard, .littleEndian⟩ depth)) value'
          [("version", .object version)] (.writing layout value') ⟨#[], none⟩ = .ok (scope, ⟨front, none⟩) ∧
        Body.packFields (Packing.candidate ⟨.standard, .littleEndian⟩ (Codec.pack ⟨.standard, .littleEndian⟩ depth)) value'
          [("data", .depend "version" selector)] scope ⟨front, none⟩ = .ok ((), ⟨#[1, 2, 7, 0], none⟩) ∧
        front.size ≤ 4 := by
  have inside : ∀ schema, Registry.standard.resolve (.object layout) = .ok schema →
      Site.Throughout Registry.standard .any (fun site => site.schema.seesOrder = false) (.top schema) := by
    rintro _ ⟨⟩
    exact blind
  obtain ⟨alike, inOrder⟩ := Registry.packWith_reordered Registry.standard .littleEndian inside
  have packed : Registry.standard.packWith (.object layout) value .littleEndian = .ok #[1, 2, 7, 0] := rfl
  have packed' : Registry.standard.packWith (.object layout) value' .littleEndian = .ok #[1, 2, 7, 0] := by
    have same := alike value value' reordered
    rw [packed] at same
    generalize Registry.standard.packWith (.object layout) value' .littleEndian = result at same
    cases same with
    | ok same => rw [← same]
  exact ⟨reordered, inside, packed, packed', inOrder layout _ _ value' _ rfl rfl packed'⟩

end Variant

end WireLayout
