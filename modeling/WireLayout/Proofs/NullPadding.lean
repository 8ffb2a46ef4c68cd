import WireLayout.Proofs.Leaving
import WireLayout.Proofs.Zeros

/-!
# Null in the place of a value

A schema that writes a value writes null as well (`pack_follows`), as long as null runs nothing that the value did not run. Null runs
less where the value decides how often: it has no elements where their number is free, and no fields in a union. So an exit that fires
for the elements of a value may not fire for null, and then fields behind it are run that were not run before; elements that can leave
the body around must not stand in an array of free length (`Schema.Calm`). And a dependent field has no sibling in null to look at
(`Schema.Pads`).
-/

namespace WireLayout

/-! ## Steps that do not see the body around -/

/-- A step that does not see the body around leaves it as it is. -/
theorem Walk.Scopeless.scope_eq {μ α : Type} {step : Walk μ α} (h : Scopeless step) {s s' : WalkState μ} {a : α}
    (hs : step s = .ok (a, s')) : s'.scope = s.scope := by
  rw [h s.medium s.scope] at hs
  cases hnone : step ⟨s.medium, none⟩ with
  | error stop =>
    rw [hnone] at hs
    cases hs
  | ok result =>
    rw [hnone] at hs
    cases hs
    rfl

/-- All that writes does not see the body around, but for an exit and the fields that look for others. -/
theorem Packing.composable_scopeless : Composable fun _ step => Walk.Scopeless step where
  bind h hnext := h.bind hnext
  appends _ := scopeless_onOutput _
  detached h := h.scopeless

/-- A schema that neither looks at the body around nor leaves it: bodies see their own, and everything else sees none. -/
inductive Schema.Calm (r : Registry) : Schema → Prop where
  | number (kind : Number) : Calm r (.number kind)
  | array {item : Candidate} (count : Count) (items : ∀ schema, r.resolve item = .ok schema → Calm r schema) : Calm r (.array item count)
  | string (size : Count) : Calm r (.string size)
  | cstring (size : Count) : Calm r (.cstring size)
  | object (layout : Layout) : Calm r (.object layout)
  | union (layout : Layout) (size : Nat) : Calm r (.union layout size)
  | enums (names : List (String × Int64)) (base : Candidate) : Calm r (.enums names base)
  | computed (operator : Operator) (v : Value) : Calm r (.computed operator v)

theorem Codec.scopeless_pack {Γ : Context} (depth : Nat) {schema : Schema} (calm : schema.Calm Γ.registry) (v : Value) :
    Walk.Scopeless (pack Γ depth schema v) := by
  induction depth generalizing schema v with
  | zero => exact Walk.Scopeless.stop _
  | succ depth ih =>
    cases calm with
    | number kind => exact Packing.scopeless_onOutput _
    | array count items => exact Packing.composable_scopeless.array (fun schema v hitem => ih (items schema hitem) v) count v
    | string size => exact Packing.composable_scopeless.text size v
    | cstring size => exact Packing.composable_scopeless.terminatedText size v
    | object layout => exact Body.scopeless_packObject _ layout v
    | union layout size => exact Body.scopeless_packUnion _ layout size v
    | enums names base => exact Packing.composable_scopeless.enumeration names base v
    | computed operator w => exact Walk.Scopeless.pure ()

/-! ## What null needs -/

section

variable {Γ : Context}

theorem Number.one_le_maxCount (kind : Number) : 1 ≤ kind.maxCount := by
  cases kind <;> decide

/-- Every kind of number stores an integer, if need be as another one. -/
theorem Number.exists_encode_int (kind : Number) (order : ByteOrder) (n : Int64) : ∃ run, kind.encode order (.int n) = .ok run := by
  cases kind <;> exact ⟨_, rfl⟩

/-- Where a number was in front, zero and one are as well. -/
theorem Count.appends_small {count : Count} {n : Nat} {s : WalkState Bytes} {r : Unit × WalkState Bytes} (h : count.pack Γ n s = .ok r)
    {m : Nat} (hm : m ≤ 1) : ∃ bytes, ∀ out scope, Packing.Appends (count.pack Γ m) out scope bytes false := by
  cases count with
  | prefixed number =>
    obtain ⟨kind, s₁, hkind, -⟩ := Walk.bind_eq_ok.mp h
    obtain ⟨hnumber, -⟩ := Walk.resolveNumber_eq_ok.mp hkind
    obtain ⟨run, hrun⟩ := kind.exists_encode_int Γ.options.byteOrder (Int64.ofNat m)
    exact ⟨run.toArray, Packing.Appends.count hnumber (Nat.le_trans hm kind.one_le_maxCount) hrun⟩
  | fixed _ | auto => exact ⟨#[], Packing.Appends.nothing⟩

theorem Region.appends_small {size : Count} {bytes : Bytes} {s : WalkState Bytes} {r : Unit × WalkState Bytes}
    (h : pack Γ size bytes s = .ok r) {content : Bytes} (hcontent : content.size ≤ 1) :
    ∃ bytes', ∀ out scope, Packing.Appends (pack Γ size content) out scope bytes' false := by
  cases size with
  | fixed n => exact ⟨content.fit n, Packing.Appends.emit _⟩
  | prefixed number =>
    obtain ⟨a, s₁, hcount, -⟩ := Walk.bind_eq_ok.mp h
    obtain ⟨front, hfront⟩ := Count.appends_small hcount hcontent
    exact ⟨front ++ content, fun out scope => (hfront out scope).seq (Packing.Appends.emit content _ _)⟩
  | auto => exact ⟨#[] ++ content, fun out scope => (Packing.Appends.nothing out scope).seq (Packing.Appends.emit content _ _)⟩

end

/-! ## Null follows a value -/

/-- Where the first step succeeds, the second one does, wherever the output ends and in every scope, if there was one: it appends the
same bytes everywhere, and leaves the body if the first one did. -/
def Follows (step step' : Packing Unit) : Prop :=
  ∀ s s', step s = .ok ((), s') → ∃ fires fires' bytes, s'.scope = leaves fires s.scope ∧ (fires = true → fires' = true) ∧
    ∀ out scope, scope.isSome = s.scope.isSome → Packing.Appends step' out scope bytes fires'

namespace Follows

open Packing

variable {Γ : Context} {run : Schema → Value → Packing Unit}

/-- Neither step sees the body around. -/
theorem scopeless {step step' : Packing Unit} (h : Walk.Scopeless step)
    (hnull : ∀ s r, step s = .ok r → ∃ bytes, ∀ out scope, Appends step' out scope bytes false) : Follows step step' := by
  intro s s' hs
  obtain ⟨bytes, happends⟩ := hnull s _ hs
  refine ⟨false, false, bytes, ?_, id, fun out scope _ => happends out scope⟩
  rw [leaves_false, h.scope_eq hs]

theorem seq {step step' next next' : Packing Unit} (h : Follows step step') (hnext : Follows next next') :
    Follows (step >>= fun _ => next) (step' >>= fun _ => next') := by
  intro s s' hs
  obtain ⟨a, s₁, hfirst, hsecond⟩ := Walk.bind_eq_ok.mp hs
  obtain ⟨fires, fires', bytes, hscope, himp, hnull⟩ := h s s₁ hfirst
  obtain ⟨more, more', rest, hscope', himp', hnull'⟩ := hnext s₁ s' hsecond
  refine ⟨fires || more, fires' || more', bytes ++ rest, ?_, ?_, ?_⟩
  · rw [hscope', hscope, leaves_leaves]
  · intro hfires
    rcases Bool.or_eq_true_iff.mp hfires with hf | hf
    · rw [himp hf, Bool.true_or]
    · rw [himp' hf, Bool.or_true]
  · intro out scope hsome
    refine (hnull out scope hsome).seq (hnull' _ _ ?_)
    rw [hscope, leaves, leaves, Option.isSome_map, Option.isSome_map, hsome]

theorem resolve {c : Candidate} {next next' : Schema → Packing Unit}
    (hnext : ∀ schema, Γ.registry.resolve c = .ok schema → Follows (next schema) (next' schema)) :
    Follows (Walk.resolve Γ c >>= next) (Walk.resolve Γ c >>= next') := by
  cases hc : Γ.registry.resolve c with
  | ok schema =>
    rw [Walk.resolve_bind_ok hc, Walk.resolve_bind_ok hc]
    exact hnext schema hc
  | error stop =>
    rw [Walk.resolve_bind_error hc, Walk.resolve_bind_error hc]
    intro s s' hs
    cases hs

theorem candidate {c : Candidate} {v : Value}
    (hrun : ∀ schema, Γ.registry.resolve c = .ok schema → Follows (run schema v) (run schema .null)) :
    Follows (candidate Γ run c v) (candidate Γ run c .null) := resolve hrun

theorem number (kind : Number) (v : Value) : Follows (number Γ kind v) (number Γ kind .null) :=
  scopeless (scopeless_onOutput _) fun _ _ _ => ⟨_, Appends.number (kind.encode_null _)⟩

theorem exitScope (kind : String) : Follows (Walk.exitScope kind) (Walk.exitScope kind) := by
  intro s s' hs
  obtain ⟨out, scope⟩ := s
  cases scope with
  | none => cases hs
  | some scope =>
    cases hs
    refine ⟨true, true, #[], congrArg some scope.leave_true.symm, id, ?_⟩
    intro out' scope' hsome
    obtain ⟨inner, rfl⟩ := Option.isSome_iff_exists.mp hsome
    exact Appends.exitScope kind out' inner

theorem text (size : Count) (v : Value) : Follows (Text.pack Γ size v) (Text.pack Γ size .null) := by
  refine scopeless (composable_scopeless.text size v) ?_
  intro s r hs
  obtain ⟨text, s₁, -, hencode⟩ := Walk.bind_eq_ok.mp hs
  obtain ⟨bytes, s₂, -, hregion⟩ := Walk.bind_eq_ok.mp hencode
  rw [Text.pack_null]
  exact Region.appends_small hregion (Nat.zero_le 1)

theorem terminatedText (size : Count) (v : Value) : Follows (Text.packTerminated Γ size v) (Text.packTerminated Γ size .null) := by
  refine scopeless (composable_scopeless.terminatedText size v) ?_
  intro s r hs
  obtain ⟨text, s₁, -, hencode⟩ := Walk.bind_eq_ok.mp hs
  obtain ⟨bytes, s₂, -, hregion⟩ := Walk.bind_eq_ok.mp hencode
  rw [Text.packTerminated_null]
  exact Region.appends_small hregion (Nat.le_refl 1)

theorem enumeration (names : List (String × Int64)) (base : Candidate) (v : Value) :
    Follows (Enumeration.pack Γ names base v) (Enumeration.pack Γ names base .null) := by
  refine scopeless (composable_scopeless.enumeration names base v) ?_
  intro s r hs
  obtain ⟨kind, s₁, hkind, -⟩ := Walk.bind_eq_ok.mp hs
  obtain ⟨hbase, -⟩ := Walk.resolveNumber_eq_ok.mp hkind
  have hnull : Enumeration.pack Γ names base .null = Packing.number Γ kind .null := Enumeration.pack_eq hbase rfl
  rw [hnull]
  exact ⟨_, Appends.number (kind.encode_null _)⟩

/-- As many elements of null as of any other list. -/
theorem packEach {step : Value → Packing Unit} (h : ∀ v, Follows (step v) (step .null)) (count : Nat) (items : List Value) :
    Follows (Elements.packEach step count items) (Elements.packEach step count []) := by
  induction count generalizing items with
  | zero => exact scopeless (.pure ()) fun _ _ _ => ⟨#[], Appends.nothing⟩
  | succ count ih =>
    rw [Elements.packEach_succ, Elements.packEach_succ]
    exact (h _).seq (ih _)

/-- An array of fixed count writes as many elements of null. -/
theorem fixedArray {item : Candidate} (hrun : ∀ schema v, Γ.registry.resolve item = .ok schema → Follows (run schema v) (run schema .null))
    (n : Nat) (v : Value) : Follows (Elements.packArray Γ run item (.fixed n) v) (Elements.packArray Γ run item (.fixed n) .null) := by
  have elements : ∀ items, Follows (Elements.pack Γ run item items n) (Elements.pack Γ run item [] n) := by
    intro items
    refine resolve fun schema hitem => ?_
    split
    · rw [Elements.packNumbers_eq_packEach, Elements.packNumbers_eq_packEach]
      exact packEach (number _) n items
    · exact packEach (fun v => hrun _ v hitem) n items
  rcases Elements.ofValue_cases v with hitems | ⟨fault, hitems⟩
  · rw [Elements.packArray_null, Elements.packArray_eq hitems]
    exact (scopeless (.pure ()) fun _ _ _ => ⟨#[], Appends.nothing⟩).seq (elements _)
  · rw [Elements.packArray, hitems]
    intro s s' hs
    cases hs

/-- An array of free length writes no elements of null, and those of the value did not leave the body. -/
theorem freeArray {item : Candidate} {count : Count} (free : count.isFixed = false)
    (hrun : ∀ schema v, Γ.registry.resolve item = .ok schema → Walk.Scopeless (run schema v)) (v : Value) :
    Follows (Elements.packArray Γ run item count v) (Elements.packArray Γ run item count .null) := by
  refine scopeless (composable_scopeless.array hrun count v) ?_
  intro s r hs
  obtain ⟨items, s₁, -, hrest⟩ := Walk.bind_eq_ok.mp hs
  obtain ⟨_, s₂, hcount, helements⟩ := Walk.bind_eq_ok.mp hrest
  obtain ⟨front, hfront⟩ := Count.appends_small hcount (Nat.zero_le 1)
  have none : count.lengthFor .null = 0 := by
    cases count with
    | fixed n => cases free
    | _ => rfl
  have nothing : Elements.pack Γ run item [] 0 = pure () := by
    cases hitem : Γ.registry.resolve item with
    | ok schema => rw [Elements.pack_eq_packEach hitem, Elements.packEach]
    | error stop =>
      rw [Elements.pack, Walk.resolve_bind_error hitem] at helements
      cases helements
  rw [Elements.packArray_null, none, nothing]
  exact ⟨front ++ #[], fun out scope => (hfront out scope).seq (Appends.nothing _ _)⟩

/-- The fields of a value that were run are run for null, unless null left the body before. -/
theorem fields {write : Candidate → Value → Packing Unit} {v : Value} {entries : Keyed Candidate}
    (hwrite : ∀ key c w, (key, c) ∈ entries → Follows (write c w) (write c .null)) {scope : Scope} {left : Bool}
    (hleft : scope.isExited = true → left = true) {out : Bytes} {around : Option Scope} {r : Scope × WalkState Bytes}
    (h : Body.packFirst write v entries scope ⟨out, around⟩ = .ok r) :
    ∃ bytes, ∀ (scope' : Scope) out' around', scope'.isExited = left →
      Appends (Body.packFields write .null entries scope') out' around' bytes false := by
  induction entries generalizing scope left out with
  | nil => exact ⟨#[], fun _ out' around' _ => Appends.nothing out' around'⟩
  | cons entry rest ih =>
    obtain ⟨key, c⟩ := entry
    cases left with
    | true =>
      refine ⟨#[], fun scope' out' around' hexited => ?_⟩
      unfold Appends
      rw [Body.packFields_exited hexited, Array.append_empty, leaves_false]
    | false =>
      have hopen : scope.isExited = false := Bool.eq_false_iff.mpr fun hexit => nomatch hleft hexit
      rw [Body.packFirst_cons hopen] at h
      cases hfield : write c ((v.get? key).getD .null) ⟨out, some (scope.mark key out.size)⟩ with
      | error stop =>
        rw [hfield] at h
        cases h
      | ok result =>
        obtain ⟨⟨⟩, out₁, inner⟩ := result
        rw [hfield] at h
        obtain ⟨fires, fires', bytes, hscope, himp, hnull⟩ := hwrite key c _ List.mem_cons_self _ _ hfield
        have hinner : inner = leaves fires (some (scope.mark key out.size)) := hscope
        subst hinner
        have hfires : ((scope.mark key out.size).leave fires).isExited = true → fires' = true := by
          intro hexit
          have hmark : (scope.mark key out.size).isExited = false := hopen
          rw [Scope.leave, hmark, Bool.false_or] at hexit
          exact himp hexit
        obtain ⟨more, hmore⟩ := ih (fun key c w hmem => hwrite key c w (List.mem_cons_of_mem _ hmem)) hfires h
        refine ⟨bytes ++ more, fun scope' out' around' hexited => ?_⟩
        unfold Appends
        rw [Body.packFields_cons hexited (hnull out' (some (scope'.mark key out'.size)) rfl), hmore, Array.append_assoc]
        have hmark : (scope'.mark key out'.size).isExited = false := hexited
        rw [Scope.leave, hmark, Bool.false_or]

theorem object {write : Candidate → Value → Packing Unit} {layout : Layout}
    (hwrite : ∀ key c w, (key, c) ∈ layout.entries → Follows (write c w) (write c .null)) (v : Value) :
    Follows (Body.packObject write layout v) (Body.packObject write layout .null) := by
  refine scopeless (Body.scopeless_packObject write layout v) ?_
  intro s r hs
  obtain ⟨-, s₁, -, hfields⟩ := Walk.bind_eq_ok.mp hs
  rw [Body.packFields_eq] at hfields
  obtain ⟨scope, s₂, hfirst, -⟩ := Walk.bind_eq_ok.mp hfields
  have hopen : (Scope.writing layout v).isExited = true → false = true := id
  obtain ⟨bytes, hbytes⟩ := fields hwrite hopen hfirst
  rw [Body.packObject_null]
  exact ⟨bytes, fun out scope => hbytes _ out scope rfl⟩

end Follows

/-- A schema that null can stand in for: no dependent field, and no elements in an array of free length that see the body around. What
runs in a union is not asked about, because null has nothing there. -/
inductive Schema.Pads (r : Registry) : Schema → Prop where
  | number (kind : Number) : Pads r (.number kind)
  | fixedArray {item : Candidate} (n : Nat) (items : ∀ schema, r.resolve item = .ok schema → Pads r schema) : Pads r (.array item (.fixed n))
  | freeArray {item : Candidate} {count : Count} (free : count.isFixed = false)
      (items : ∀ schema, r.resolve item = .ok schema → schema.Calm r) : Pads r (.array item count)
  | string (size : Count) : Pads r (.string size)
  | cstring (size : Count) : Pads r (.cstring size)
  | object {layout : Layout} (fields : ∀ key c schema, (key, c) ∈ layout.entries → r.resolve c = .ok schema → Pads r schema) :
      Pads r (.object layout)
  | union (layout : Layout) (size : Nat) : Pads r (.union layout size)
  | enums (names : List (String × Int64)) (base : Candidate) : Pads r (.enums names base)
  | computed (operator : Operator) (v : Value) : Pads r (.computed operator v)
  | exit : Pads r .exit

/-- Null is packed where any value is. -/
theorem Codec.pack_follows {Γ : Context} (depth : Nat) {schema : Schema} (pads : schema.Pads Γ.registry) (v : Value) :
    Follows (pack Γ depth schema v) (pack Γ depth schema .null) := by
  induction depth generalizing schema v with
  | zero =>
    intro s s' hs
    cases hs
  | succ depth ih =>
    cases pads with
    | number kind => exact Follows.number kind v
    | fixedArray n items => exact Follows.fixedArray (fun schema v hitem => ih (items schema hitem) v) n v
    | freeArray free items => exact Follows.freeArray free (fun schema v hitem => scopeless_pack depth (items schema hitem) v) v
    | string size => exact Follows.text size v
    | cstring size => exact Follows.terminatedText size v
    | @object layout fields =>
      have hwrite : ∀ key c w, (key, c) ∈ layout.entries →
          Follows (Packing.candidate Γ (pack Γ depth) c w) (Packing.candidate Γ (pack Γ depth) c .null) := by
        intro key c w hmem
        exact Follows.candidate fun schema hschema => ih (fields key c schema hmem hschema) w
      exact Follows.object hwrite v
    | union layout size =>
      refine Follows.scopeless (Body.scopeless_packUnion _ layout size v) fun _ _ _ => ?_
      show ∃ bytes, ∀ out scope, Packing.Appends (Body.packUnion _ layout size .null) out scope bytes false
      rw [Body.packUnion_null]
      exact ⟨_, Packing.Appends.emit _⟩
    | enums names base => exact Follows.enumeration names base v
    | computed operator w => exact Follows.scopeless (.pure ()) fun _ _ _ => ⟨#[], Packing.Appends.nothing⟩
    | exit => exact Follows.exitScope "exit"

end WireLayout
