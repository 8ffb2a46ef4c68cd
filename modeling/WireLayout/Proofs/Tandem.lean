import WireLayout.Proofs.Appending
import WireLayout.Proofs.ContextFree
import WireLayout.Proofs.Parts
import WireLayout.Proofs.Window
import WireLayout.Proofs.Writing

/-!
# Two runs side by side

The same schema is written twice, to outputs that are the same but for a window, in bodies that are the same but for the values of
some fields. Where the schema looks at none of these fields, and no count is written over the window, both runs do the same and the
outputs are again the same but for the window (`pack_tandem`). A `Pairing` says what the two runs have in common; two runs of one
output are the case of a window of no bytes.
-/

namespace WireLayout

/-! ## Sites of one body -/

namespace Site

variable {r : Registry} {v : Value} {φ : Site → Prop} {site site' : Site}

/-- One schema runs directly inside another in the same body, which has this value. -/
def RunsHere (r : Registry) (v : Value) (site site' : Site) : Prop :=
  site.schema.isBody = false ∧ Runs r (fun _ field w => v.get? field = some w) site site'

/-- A property holds at a site and at every site inside that runs in the same body. -/
def ThroughoutBody (r : Registry) (v : Value) (φ : Site → Prop) (site : Site) : Prop :=
  ∀ site', Relation.ReflTransGen (RunsHere r v) site site' → φ site'

theorem ThroughoutBody.here (h : ThroughoutBody r v φ site) : φ site := h site .refl

theorem ThroughoutBody.of_runs (h : ThroughoutBody r v φ site) (hr : RunsHere r v site site') : ThroughoutBody r v φ site' :=
  fun site'' hin => h site'' (.head hr hin)

/-- A property holds throughout a body when it holds here and throughout every site directly inside. -/
theorem throughoutBody_intro (here : φ site) (inside : ∀ site', RunsHere r v site site' → ThroughoutBody r v φ site') :
    ThroughoutBody r v φ site := by
  intro site'' hin
  rcases Relation.ReflTransGen.cases_head hin with rfl | ⟨site', hr, hin'⟩
  · exact here
  · exact inside site' hr site'' hin'

/-- Nothing runs inside a number. -/
theorem throughoutBody_number {kind : Number} {place : Option Place} {isParsed : Bool} (here : φ ⟨.number kind, place, isParsed⟩) :
    ThroughoutBody r v φ ⟨.number kind, place, isParsed⟩ := by
  refine throughoutBody_intro here ?_
  rintro site' ⟨-, hr⟩
  cases hr

end Site

/-- The fields of a body that must not be looked at: those whose value is another in another run, and those whose place is covered. -/
structure Veil where
  unread : String → Prop
  unlinked : String → Prop

namespace Veil

/-- Every field may be looked at. -/
def none : Veil := ⟨fun _ => False, fun _ => False⟩

/-- A schema looks at no field behind the veil. A linked array in a transformed region writes its count into that region, so it does
not matter where the count of the body stands. -/
def Admits (veil : Veil) (site : Site) : Prop :=
  match site.schema with
  | .depend field _ => ¬veil.unread field
  | .link field _ => site.isParsed = false → ¬veil.unlinked field
  | _ => True

theorem none_admits (site : Site) : none.Admits site := by
  unfold Admits
  split
  · exact id
  · exact fun _ => id
  · trivial

end Veil

/-! ## What two runs have in common -/

/-- Two outcomes are related, or both are the same failure. -/
inductive Both {ρ : Type} (R : ρ → ρ → Prop) : Except Stop ρ → Except Stop ρ → Prop where
  | ok {a b : ρ} (h : R a b) : Both R (.ok a) (.ok b)
  | stop (stop : Stop) : Both R (.error stop) (.error stop)

theorem Both.mono {ρ : Type} {R S : ρ → ρ → Prop} {a b : Except Stop ρ} (h : Both R a b) (himp : ∀ a b, R a b → S a b) : Both S a b := by
  cases h with
  | ok h => exact .ok (himp _ _ h)
  | stop stop => exact .stop stop

theorem Both.exists_of_ok {ρ : Type} {R : ρ → ρ → Prop} {a : ρ} {second : Except Stop ρ} (h : Both R (.ok a) second) :
    ∃ b, second = .ok b ∧ R a b := by
  cases h with
  | ok h => exact ⟨_, rfl, h⟩

/-- Two outcomes that are related by being the same are the same. -/
theorem Both.eq {ρ : Type} {a b : Except Stop ρ} (h : Both Eq a b) : a = b := by
  cases h with
  | ok h => rw [h]
  | stop _ => rfl

/-- Two sequences of steps that go on from related states. -/
theorem Walk.both_bind {μ α β : Type} {step step' : Walk μ α} {next next' : α → Walk μ β} {s s' : WalkState μ}
    {R : α × WalkState μ → α × WalkState μ → Prop} {S : β × WalkState μ → β × WalkState μ → Prop} (h : Both R (step s) (step' s'))
    (hnext : ∀ a b, step s = .ok a → R a b → Both S (next a.1 a.2) (next' b.1 b.2)) :
    Both S ((step >>= next) s) ((step' >>= next') s') := by
  rw [Walk.bind_apply, Walk.bind_apply]
  cases hfirst : step s with
  | error stop =>
    rw [hfirst] at h
    generalize step' s' = second at h
    cases h
    exact .stop stop
  | ok a =>
    rw [hfirst] at h
    obtain ⟨b, hsecond, hab⟩ := h.exists_of_ok
    rw [hsecond]
    exact hnext a b hfirst hab

/-- Two runs of the fields from one on, when both are related behind that one. -/
theorem Body.both_packFirst_cons {run : Candidate → Value → Packing Unit} {v v' : Value} {key : String} {c : Candidate}
    {rest : Keyed Candidate} {s t : Scope} (hexit : s.isExited = false) (hexit' : t.isExited = false) {out out' : Bytes}
    {around around' : Option Scope} {R : Unit × WalkState Bytes → Unit × WalkState Bytes → Prop}
    {S : Scope × WalkState Bytes → Scope × WalkState Bytes → Prop}
    (hfield : Both R (run c ((v.get? key).getD .null) ⟨out, some (s.mark key out.size)⟩)
      (run c ((v'.get? key).getD .null) ⟨out', some (t.mark key out'.size)⟩))
    (hrest : ∀ a b, R a b → Both S (packFirst run v rest (a.2.scope.getD (s.mark key out.size)) ⟨a.2.medium, around⟩)
      (packFirst run v' rest (b.2.scope.getD (t.mark key out'.size)) ⟨b.2.medium, around'⟩)) :
    Both S (packFirst run v ((key, c) :: rest) s ⟨out, around⟩) (packFirst run v' ((key, c) :: rest) t ⟨out', around'⟩) := by
  rw [packFirst_cons hexit, packFirst_cons hexit']
  generalize run c ((v.get? key).getD .null) ⟨out, some (s.mark key out.size)⟩ = first at hfield
  generalize run c ((v'.get? key).getD .null) ⟨out', some (t.mark key out'.size)⟩ = second at hfield
  cases hfield with
  | ok h => exact hrest _ _ h
  | stop stop => exact .stop stop

/-- What two runs have in common: the window in which the outputs differ, and the body around with the fields in which it differs. The
value is that of the body in the first run. -/
structure Pairing where
  veil : Veil
  window : Window
  body : Option Layout
  value : Value

namespace Pairing

/-- Two runs on an output of their own. -/
def aside (P : Pairing) : Pairing := { P with window := .closed }

/-- Two runs in a body inside, which is the same in both. -/
def inside (P : Pairing) (layout : Layout) (v : Value) : Pairing := { P with veil := .none, body := some layout, value := v }

variable {Γ : Context} {P : Pairing} {s t : Scope} {scope scope' : Option Scope}

/-- The body around in two runs. The fields that may be linked stand behind the window, or are numbers that stand in front of it. -/
structure Pairs (Γ : Context) (P : Pairing) (s t : Scope) : Prop where
  body : P.body = some s.layout
  value : s.value = P.value
  layout : t.layout = s.layout
  offsets : t.offsets = s.offsets
  exited : t.isExited = s.isExited
  read : ∀ field, ¬P.veil.unread field → t.field? field = s.field? field
  linked : ∀ field offset, ¬P.veil.unlinked field → s.offset? field = some offset → P.window.stop ≤ offset ∨
    ∃ counter kind, s.fieldSchema? field = some counter ∧ Γ.registry.resolve counter = .ok (.number kind) ∧
      offset + kind.size ≤ P.window.start

/-- What is around in two runs. -/
inductive Faces (Γ : Context) (P : Pairing) : Option Scope → Option Scope → Prop where
  | outside (h : P.body = none) : Faces Γ P none none
  | body {s t : Scope} (h : P.Pairs Γ s t) : Faces Γ P (some s) (some t)

theorem Pairs.leave (h : P.Pairs Γ s t) (fires : Bool) : P.Pairs Γ (s.leave fires) (t.leave fires) where
  body := h.body
  value := h.value
  layout := h.layout
  offsets := h.offsets
  exited := by
    simp only [Scope.leave, h.exited]
  read := h.read
  linked := h.linked

/-- A field that starts behind the window. -/
theorem Pairs.mark (h : P.Pairs Γ s t) (key : String) {offset : Nat} (hoffset : P.window.stop ≤ offset) :
    P.Pairs Γ (s.mark key offset) (t.mark key offset) where
  body := h.body
  value := h.value
  layout := h.layout
  offsets := by
    simp only [Scope.mark, h.offsets]
  exited := h.exited
  read := h.read
  linked field offset' hlinked hnoted := by
    simp only [Scope.offset?, Scope.mark, Keyed.lookup_insert] at hnoted
    split at hnoted
    · cases hnoted
      exact Or.inl hoffset
    · exact h.linked field offset' hlinked hnoted

theorem Pairs.aside (h : P.Pairs Γ s t) : P.aside.Pairs Γ s t :=
  { h with linked := fun _ offset _ _ => Or.inl (Nat.zero_le offset) }

theorem Pairs.offset? (h : P.Pairs Γ s t) (field : String) : t.offset? field = s.offset? field := by
  rw [Scope.offset?, Scope.offset?, h.offsets]

theorem Pairs.fieldSchema? (h : P.Pairs Γ s t) (field : String) : t.fieldSchema? field = s.fieldSchema? field := by
  rw [Scope.fieldSchema?, Scope.fieldSchema?, h.layout]

/-- The start of a body inside. -/
theorem pairs_inside (P : Pairing) (layout : Layout) (v : Value) :
    (P.inside layout v).Pairs Γ (.writing layout v) (.writing layout v) where
  body := rfl
  value := rfl
  layout := rfl
  offsets := rfl
  exited := rfl
  read _ _ := rfl
  linked _ _ _ hnoted := by cases hnoted

theorem Faces.leaves (h : P.Faces Γ scope scope') (fires : Bool) : P.Faces Γ (leaves fires scope) (leaves fires scope') := by
  cases h with
  | outside h => exact .outside h
  | body h => exact .body (h.leave fires)

theorem Faces.aside (h : P.Faces Γ scope scope') : P.aside.Faces Γ scope scope' := by
  cases h with
  | outside h => exact .outside h
  | body h => exact .body h.aside

/-- What two runs of a step give: the same value, outputs that have grown and are the same but for the window, and the bodies left or
not. -/
structure After {α : Type} (P : Pairing) (out : Bytes) (scope scope' : Option Scope) (a b : α × WalkState Bytes) : Prop where
  value : b.1 = a.1
  splits : P.window.Splits a.2.medium b.2.medium
  grows : out.size ≤ a.2.medium.size
  leaves : ∃ fires, a.2.scope = leaves fires scope ∧ b.2.scope = leaves fires scope'

end Pairing

/-- In two runs with this in common the step does the same. -/
def Tandem {α : Type} (Γ : Context) (P : Pairing) (step : Packing α) : Prop :=
  ∀ out out' scope scope', P.window.Splits out out' → P.Faces Γ scope scope' →
    Both (P.After out scope scope') (step ⟨out, scope⟩) (step ⟨out', scope'⟩)

namespace Sibling

variable {Γ : Context} {run : Schema → Value → Packing Unit} {counter : Candidate} {kind : Number}

/-- The bytes of a count that a number stores, or the overflow. -/
theorem countBytes_number (h : Γ.registry.resolve counter = .ok (.number kind)) (n : Nat) :
    countBytes Γ run counter n = Walk.ofExcept (kind.packCount Γ.options.byteOrder n #[]) := by
  rw [countBytes, Walk.resolve_bind_ok h]
  funext s
  simp only [Packing.collect, Walk.bind_apply, Walk.aside, Packing.onOutput]
  cases kind.packCount Γ.options.byteOrder n #[] <;> rfl

/-- A number stores a count in as many bytes as it is wide. -/
theorem size_of_countBytes (h : Γ.registry.resolve counter = .ok (.number kind)) {n : Nat} {s s' : WalkState Bytes} {bytes : Bytes}
    (hbytes : countBytes Γ run counter n s = .ok (bytes, s')) : bytes.size = kind.size := by
  rw [countBytes_number h, Number.packCount] at hbytes
  split at hbytes
  · cases hbytes
  · rw [Number.pack_eq] at hbytes
    cases hrun : kind.encode Γ.options.byteOrder (.ofCount n) with
    | error fault =>
      rw [hrun] at hbytes
      cases hbytes
    | ok run =>
      rw [hrun] at hbytes
      cases hbytes
      simp [Number.length_of_encode hrun]

end Sibling

namespace Tandem

open Packing

variable {Γ : Context} {P : Pairing} {run : Schema → Value → Packing Unit}

/-- What comes behind matters only for the values that the first step gives. -/
theorem bind {α β : Type} {step : Packing α} {next : α → Packing β} (h : Tandem Γ P step)
    (hnext : ∀ s a s', step s = .ok (a, s') → Tandem Γ P (next a)) : Tandem Γ P (step >>= next) := by
  intro out out' scope scope' hsplits hfaces
  have hfirst := h out out' scope scope' hsplits hfaces
  rw [Walk.bind_apply, Walk.bind_apply]
  cases hstep : step ⟨out, scope⟩ with
  | error stop =>
    rw [hstep] at hfirst
    generalize step ⟨out', scope'⟩ = second at hfirst
    cases hfirst
    exact .stop stop
  | ok result =>
    obtain ⟨a, s₁⟩ := result
    rw [hstep] at hfirst
    obtain ⟨⟨a', s₁'⟩, hstep', hafter⟩ := hfirst.exists_of_ok
    obtain ⟨fires, hscope, hscope'⟩ := hafter.leaves
    obtain rfl : a' = a := hafter.value
    have hsecond := hnext _ a' s₁ hstep s₁.medium s₁'.medium s₁.scope s₁'.scope hafter.splits
      (by rw [hscope, hscope']; exact hfaces.leaves fires)
    rw [hstep']
    refine hsecond.mono ?_
    intro a b hlast
    obtain ⟨fires', hleft, hright⟩ := hlast.leaves
    refine ⟨hlast.value, hlast.splits, Nat.le_trans hafter.grows hlast.grows, fires || fires', ?_, ?_⟩
    · rw [hleft, hscope, leaves_leaves]
    · rw [hright, hscope', leaves_leaves]

theorem appends {f : Bytes → Except Fault Bytes} (hf : Written f) : Tandem Γ P (onOutput f) := by
  intro out out' scope scope' hsplits _
  have hleft := hf out #[]
  have hright := hf out' #[]
  rw [Array.append_empty] at hleft hright
  simp only [onOutput, hleft, hright]
  cases f #[] with
  | error fault => exact .stop _
  | ok bytes =>
    refine .ok ⟨rfl, hsplits.append bytes, ?_, false, ?_, ?_⟩
    · simp [Array.size_append]
    · exact (leaves_false scope).symm
    · exact (leaves_false scope').symm

theorem exitScope (kind : String) : Tandem Γ P (Walk.exitScope kind) := by
  intro out out' scope scope' hsplits hfaces
  cases hfaces with
  | outside _ => exact .stop _
  | @body s t _ =>
    refine .ok ⟨rfl, hsplits, Nat.le_refl _, true, ?_, ?_⟩
    · exact congrArg some s.leave_true.symm
    · exact congrArg some t.leave_true.symm

theorem detached {α : Type} {step : Packing α} (h : Walk.Detached step) : Tandem Γ P step := by
  intro out out' scope scope' hsplits _
  rw [h ⟨out, scope⟩ ⟨out, scope⟩, h ⟨out', scope'⟩ ⟨out, scope⟩]
  cases step ⟨out, scope⟩ with
  | error stop => exact .stop stop
  | ok result => exact .ok ⟨rfl, hsplits, Nat.le_refl _, false, (leaves_false scope).symm, (leaves_false scope').symm⟩

theorem compositional (Γ : Context) (P : Pairing) : Compositional fun _ step => Tandem Γ P step where
  bind hstep hnext := hstep.bind fun _ a _ _ => hnext a
  appends hf := appends hf
  exitScope kind := exitScope kind
  detached h := detached h

/-- On an output of its own a step writes the same in both runs. -/
theorem collect {step : Packing Unit} (h : Tandem Γ P.aside step) : Tandem Γ P (collect step) := by
  intro out out' scope scope' hsplits hfaces
  have haside := h #[] #[] scope scope' (Window.Splits.refl_closed #[]) hfaces.aside
  simp only [Packing.collect, Walk.bind_apply, Walk.aside]
  generalize step ⟨#[], scope⟩ = first at haside
  generalize step ⟨#[], scope'⟩ = second at haside
  cases haside with
  | stop stop => exact .stop stop
  | @ok a b hafter =>
    have hsame : b.2.medium = a.2.medium := (hafter.splits.eq_of_same rfl).symm
    exact .ok ⟨hsame, hsplits, Nat.le_refl _, hafter.leaves⟩

/-- A dependent field runs what the same value selects in both runs. -/
theorem depend {field : String} {selector : Selector} {v : Value} (hread : ¬P.veil.unread field)
    (hrun : ∀ w c schema, P.value.get? field = some w → selector.select w = .ok c → Γ.registry.resolve c = .ok schema →
      Tandem Γ P (run schema v)) : Tandem Γ P (Sibling.packDepend Γ run field selector v) := by
  intro out out' scope scope' hsplits hfaces
  rw [Sibling.packDepend, Walk.bind_apply, Walk.bind_apply, Walk.sibling_eq_onScope]
  cases hfaces with
  | outside _ => exact .stop _
  | @body s t h =>
    simp only [Walk.onScope, h.read field hread]
    cases hw : s.field? field with
    | none => exact .stop _
    | some w =>
      rw [Scope.field?, h.value] at hw
      have hnext : Tandem Γ P (Walk.ofExcept (selector.select w) >>= fun selected => candidate Γ run selected v) := by
        cases hselect : selector.select w with
        | error fault => exact (compositional Γ P).stop _
        | ok c => exact (compositional Γ P).candidate fun schema hc => hrun w c schema hw hselect hc
      exact hnext out out' (some s) (some t) hsplits (.body h)

/-! ## Linked arrays -/

/-- The same bytes are written over the same place, which is not in the window. -/
theorem patch {offset : Nat} {content : Bytes} (hplace : P.window.stop ≤ offset ∨ offset + content.size ≤ P.window.start) :
    Tandem Γ P (onOutput fun out => .ok (out.patch offset content)) := by
  intro out out' scope scope' hsplits _
  refine .ok ⟨rfl, hsplits.patch hplace, ?_, false, (leaves_false scope).symm, (leaves_false scope').symm⟩
  rw [Bytes.size_patch]
  exact Nat.le_max_left _ _

/-- The bytes of a count are the same in both runs, when those of the value that it is are. -/
theorem countBytes {counter : Candidate} {n : Nat}
    (hrun : ∀ schema, Γ.registry.resolve counter = .ok schema → Tandem Γ P.aside (run schema (.ofCount n))) :
    Tandem Γ P (Sibling.countBytes Γ run counter n) := by
  refine (compositional Γ P).resolve ?_
  intro schema hc
  split
  · exact collect (appends (Number.written_packCount _ _ n))
  · exact collect (hrun schema hc)

/-- A linked array names a field whose place is in neither window nor veil, or writes to an output of its own. -/
theorem link {field : String} {item : Candidate} (hplace : P.window.stop = 0 ∨ ¬P.veil.unlinked field)
    (hcount : ∀ layout counter schema n, P.body = some layout → layout.get? field = some counter →
      Γ.registry.resolve counter = .ok schema → Tandem Γ P.aside (run schema (.ofCount n)))
    (hrun : ∀ schema v, Γ.registry.resolve item = .ok schema → Tandem Γ P (run schema v)) (v : Value) :
    Tandem Γ P (Sibling.packLink Γ run field item v) := by
  refine (compositional Γ P).bind ((compositional Γ P).elementsOf v) ?_
  intro items out out' scope scope' hsplits hfaces
  rw [Walk.bind_apply, Walk.bind_apply]
  cases hfaces with
  | outside _ => exact .stop _
  | @body s t h =>
    simp only [Walk.requireScope, h.fieldSchema?, h.offset?]
    cases hcounter : s.fieldSchema? field with
    | none => exact .stop _
    | some counter =>
      cases hoffset : s.offset? field with
      | none => exact .stop _
      | some offset =>
        have hbytes : Tandem Γ P (Sibling.countBytes Γ run counter items.length) :=
          countBytes fun schema hc => hcount s.layout counter schema items.length h.body hcounter hc
        refine hbytes.bind ?_ out out' (some s) (some t) hsplits (.body h)
        intro state bytes state' hwritten
        have hclear : P.window.stop ≤ offset ∨ offset + bytes.size ≤ P.window.start := by
          rcases hplace with hzero | hlinked
          · exact Or.inl (hzero ▸ Nat.zero_le offset)
          · rcases h.linked field offset hlinked hoffset with hbehind | ⟨counter', kind, hcounter', hkind, hbefore⟩
            · exact Or.inl hbehind
            · obtain rfl : counter = counter' := Option.some.inj (hcounter.symm.trans hcounter')
              rw [Sibling.size_of_countBytes hkind hwritten]
              exact Or.inr hbefore
        exact (compositional Γ P).bind (patch hclear) fun _ => (compositional Γ P).elements hrun items _

/-! ## Bodies -/

/-- What two runs have in common behind the first fields of a body. -/
structure Behind (Γ : Context) (P : Pairing) (entries : Keyed Candidate) (s : Scope) (out : Bytes) (around around' : Option Scope)
    (a b : Scope × WalkState Bytes) : Prop where
  pairs : P.Pairs Γ a.1 b.1
  splits : P.window.Splits a.2.medium b.2.medium
  grows : out.size ≤ a.2.medium.size
  around : a.2.scope = around ∧ b.2.scope = around'
  offset? : ∀ key, key ∉ Keyed.keys entries → a.1.offset? key = s.offset? key

/-- Fields that have the same values in both runs. -/
theorem packFirst {run : Candidate → Value → Packing Unit} {entries : Keyed Candidate} {v v' : Value}
    (hrun : ∀ before key c after, entries = before ++ (key, c) :: after → Tandem Γ P (run c ((v.get? key).getD .null)))
    (hsame : ∀ key, key ∈ Keyed.keys entries → v'.get? key = v.get? key) {s t : Scope} (hpairs : P.Pairs Γ s t) {out out' : Bytes}
    (hsplits : P.window.Splits out out') (around around' : Option Scope) :
    Both (Behind Γ P entries s out around around') (Body.packFirst run v entries s ⟨out, around⟩)
      (Body.packFirst run v' entries t ⟨out', around'⟩) := by
  induction entries generalizing s t out out' with
  | nil => exact .ok ⟨hpairs, hsplits, Nat.le_refl _, ⟨rfl, rfl⟩, fun _ _ => rfl⟩
  | cons entry rest ih =>
    obtain ⟨key, c⟩ := entry
    have hexited := hpairs.exited
    cases hexit : s.isExited with
    | true =>
      rw [hexit] at hexited
      rw [Body.packFirst_exited hexit, Body.packFirst_exited hexited]
      exact .ok ⟨hpairs, hsplits, Nat.le_refl _, ⟨rfl, rfl⟩, fun _ _ => rfl⟩
    | false =>
      rw [hexit] at hexited
      have hmark := hpairs.mark key hsplits.stop_le
      have hfield : Both (P.After out (some (s.mark key out.size)) (some (t.mark key out'.size)))
          (run c ((v.get? key).getD .null) ⟨out, some (s.mark key out.size)⟩)
          (run c ((v'.get? key).getD .null) ⟨out', some (t.mark key out'.size)⟩) := by
        rw [hsame key List.mem_cons_self, hsplits.size_eq]
        exact hrun [] key c rest rfl out out' _ _ hsplits (.body hmark)
      refine Body.both_packFirst_cons hexit hexited hfield ?_
      rintro ⟨⟨⟩, out₁, inner⟩ ⟨⟨⟩, out₁', inner'⟩ hafter
      obtain ⟨fires, rfl, rfl⟩ := hafter.leaves
      have hrest : ∀ before key c after, rest = before ++ (key, c) :: after → Tandem Γ P (run c ((v.get? key).getD .null)) := by
        intro before key' c' after hsplit
        exact hrun ((key, c) :: before) key' c' after (by rw [hsplit]; rfl)
      rw [hsplits.size_eq]
      have hbehind := ih hrest (fun key' hkey => hsame key' (List.mem_cons_of_mem _ hkey)) (hmark.leave fires) hafter.splits
      refine hbehind.mono ?_
      intro a b h
      refine ⟨h.pairs, h.splits, Nat.le_trans hafter.grows h.grows, h.around, ?_⟩
      intro key' hkey
      rw [Keyed.keys, List.map_cons, List.mem_cons, not_or] at hkey
      rw [h.offset? key' hkey.2]
      simp only [Scope.offset?, Scope.leave, Scope.mark, Keyed.lookup_insert, if_neg hkey.1]

/-- An object inside is the same in both runs. -/
theorem object {run : Candidate → Value → Packing Unit} {layout : Layout} (v : Value)
    (hrun : ∀ before key c after, layout.entries = before ++ (key, c) :: after →
      Tandem Γ (P.inside layout v) (run c ((v.get? key).getD .null))) : Tandem Γ P (Body.packObject run layout v) := by
  refine (compositional Γ P).bind ((compositional Γ P).ofExcept _) ?_
  intro _ out out' scope scope' hsplits _
  have hfields := packFirst hrun (fun _ _ => rfl) (Pairing.pairs_inside P layout v) hsplits scope scope'
  rw [Body.packFields_eq]
  refine Walk.both_bind hfields ?_
  intro a b _ h
  refine .ok ⟨rfl, h.splits, h.grows, false, ?_, ?_⟩
  · rw [leaves_false]
    exact h.around.1
  · rw [leaves_false]
    exact h.around.2

end Tandem

/-! ## Every schema -/

namespace Codec

open Packing

variable {Γ : Context}

/-- Two runs of a schema do the same where it looks at no field behind the veil and no user-defined kind runs inside. In a transformed
region there is no window to be written over, because the outputs there are the runs' own. -/
theorem pack_tandem (depth : Nat) {site : Site} {P : Pairing}
    (hcustom : Site.Throughout Γ.registry .any (fun site => site.schema.isCustom = false) site)
    (hveil : Site.ThroughoutBody Γ.registry P.value P.veil.Admits site) (hbody : P.body = site.place.map (·.layout))
    (hparsed : site.isParsed = true → P.window.stop = 0) (v : Value) : Tandem Γ P (pack Γ depth site.schema v) := by
  induction depth generalizing site P v with
  | zero => exact (Tandem.compositional Γ P).stop _
  | succ depth ih =>
    obtain ⟨schema, place, isParsed⟩ := site
    have hc := Tandem.compositional Γ P
    cases schema with
    | number kind => exact hc.number kind v
    | array item count =>
      refine hc.array (fun schema v hitem => ?_) count v
      exact ih (hcustom.of_runs (.item hitem)) (hveil.of_runs ⟨rfl, .item hitem⟩) hbody hparsed v
    | string size => exact hc.text size v
    | cstring size => exact hc.terminatedText size v
    | object layout =>
      refine Tandem.object v ?_
      intro before key c after hsplit
      refine (Tandem.compositional Γ (P.inside layout v)).candidate fun schema hschema => ?_
      exact ih (hcustom.of_runs (.field hsplit hschema)) (fun site _ => Veil.none_admits site) rfl (by rintro ⟨⟩) _
    | union layout size => exact hc.union _ layout size v
    | enums names base => exact hc.enumeration names base v
    | depend field selector =>
      refine Tandem.depend hveil.here ?_
      intro w c schema hw hselect hschema
      exact ih (hcustom.of_runs (.selected trivial hselect hschema)) (hveil.of_runs ⟨rfl, .selected hw hselect hschema⟩) hbody
        hparsed v
    | link field item =>
      have hplace : P.window.stop = 0 ∨ ¬P.veil.unlinked field := by
        cases isParsed with
        | true => exact Or.inl (hparsed rfl)
        | false => exact Or.inr (hveil.here rfl)
      refine Tandem.link hplace ?_ ?_ v
      · intro layout counter schema n hlayout hcounter hschema
        rw [hbody] at hlayout
        obtain ⟨place, rfl, rfl⟩ := Option.map_eq_some_iff.mp hlayout
        exact ih (P := P.aside) (hcustom.of_runs (.counter hcounter hschema)) (hveil.of_runs ⟨rfl, .counter hcounter hschema⟩)
          hbody (fun _ => rfl) _
      · intro schema v hitem
        exact ih (hcustom.of_runs (.linked hitem)) (hveil.of_runs ⟨rfl, .linked hitem⟩) hbody hparsed v
    | computed operator w => exact hc.pure ()
    | exit => exact hc.exitScope "exit"
    | parse encode decode inner size =>
      have hinner : Tandem Γ P.aside (candidate Γ (pack Γ depth) inner v) := by
        refine (Tandem.compositional Γ P.aside).candidate fun schema hschema => ?_
        exact ih (P := P.aside) (hcustom.of_runs (.inner hschema)) (hveil.of_runs ⟨rfl, .inner hschema⟩) hbody (fun _ => rfl) v
      exact hc.bind (Tandem.collect hinner) fun plain => hc.bind (hc.ofExcept _) fun encoded => hc.region size encoded
    | custom extension => exact absurd hcustom.here (by simp [Schema.isCustom])

end Codec

end WireLayout
