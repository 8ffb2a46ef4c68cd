import WireLayout.Proofs.Appending
import WireLayout.Proofs.Contents
import WireLayout.Proofs.Moving

/-!
# Staying in a body

Only an exit and a user-defined kind can leave the body around. Where neither runs inside, reading and writing leave the body as it is
(`unpack_stays`, `pack_stays`), if it is one that notes no start of a field: where it does, a linked array runs the schema of a sibling
field to write its count, and that may be any field of the body.
-/

namespace WireLayout

/-- The same body, if it notes no start of a field. -/
def Kept (scope scope' : Option Scope) : Prop := (∀ s, scope = some s → s.offsets = []) → scope' = scope

instance : IsPreorder (Option Scope) Kept where
  refl _ _ := rfl
  trans _ _ _ h h' unplaced := by
    have first := h unplaced
    rw [← first] at unplaced
    exact (h' unplaced).trans first

/-- Whether a schema may leave the body around by itself. -/
def Schema.mayLeave : Schema → Bool
  | exit | custom _ => true
  | _ => false

namespace Walk

variable {μ α : Type}

/-- Successful runs leave a body as it is, if it notes no start of a field. -/
abbrev Stays (step : Walk μ α) : Prop := Moves Kept step

end Walk

open Walk

variable {Γ : Context}

/-- In a body that notes no start of a field a linked array has no place to write its count to, and fails. -/
theorem stays_packLink {run : Schema → Value → Packing Unit} (field : String) (item : Candidate) (v : Value) :
    Stays (Sibling.packLink Γ run field item v) := by
  refine Moves.bind (Packing.composable_moves.elementsOf v) fun items => ?_
  intro ⟨out, scope⟩ a s' hs unplaced
  cases scope with
  | none => cases hs
  | some scope =>
    have nowhere : scope.offset? field = none := by
      rw [Scope.offset?, unplaced scope rfl]
      rfl
    rw [Walk.bind_apply] at hs
    simp only [Walk.requireScope, nowhere] at hs
    generalize scope.fieldSchema? field = counter at hs
    cases counter with
    | none => cases hs
    | some counter => cases hs

@[simp]
theorem Scope.offsets_push (s : Scope) (key : String) (v : Value) : (s.push key v).offsets = s.offsets := by
  unfold push
  split <;> rfl

/-- A body is not left by reading fields that stay in it. -/
theorem Body.unpackFields_stays {run : Candidate → Unpacking Value} {fields : Keyed Candidate}
    (stays : ∀ field ∈ fields, Stays (run field.2)) {scope : Scope} (unplaced : scope.offsets = []) {s : WalkState Cursor}
    {r : Scope × WalkState Cursor} (h : unpackFields run fields scope s = .ok r) : r.1.isExited = scope.isExited := by
  induction fields generalizing scope s with
  | nil =>
    cases h
    rfl
  | cons field rest ih =>
    obtain ⟨key, c⟩ := field
    have hrest := fun field hmem => stays field (List.mem_cons_of_mem _ hmem)
    cases hexit : scope.isExited with
    | true =>
      rw [unpackFields, if_pos hexit] at h
      rw [ih hrest (by rwa [Scope.offsets_push]) h, Scope.isExited_push, hexit]
    | false =>
      obtain ⟨v, ⟨medium, inner⟩, hfield, hnext⟩ := (unpackFields_cons_eq_ok hexit).mp h
      have kept : inner = some scope := by
        refine stays _ List.mem_cons_self _ _ _ hfield ?_
        rintro s ⟨⟩
        exact unplaced
      subst kept
      rw [ih hrest (by rwa [Option.getD_some, Scope.offsets_push]) hnext, Option.getD_some, Scope.isExited_push, hexit]

namespace Codec

/-- Reading leaves the body around as it is, where nothing inside may leave it. -/
theorem unpack_stays (depth : Nat) {site : Site}
    (plain : Site.Throughout Γ.registry .any (fun site => site.schema.mayLeave = false) site) :
    Stays (unpack Γ depth site.schema) := by
  induction depth generalizing site with
  | zero => exact Moves.stop _
  | succ depth ih =>
    have h := Unpacking.composable_moves (R := Kept)
    have ho := Unpacking.openEnded_moves (R := Kept)
    obtain ⟨schema, place, isParsed⟩ := site
    cases schema with
    | number kind => exact h.number kind
    | array item count => exact h.array (fun _ => ho) fun schema resolved => ih (plain.of_runs (.item resolved))
    | string size => exact h.text fun _ => ho
    | cstring size => exact h.terminatedText size
    | object layout => exact (Body.scopeless_unpackObject _ layout).moves
    | union layout size => exact (Body.scopeless_unpackUnion _ layout size).moves
    | enums names base => exact h.enumeration names base
    | depend field selector =>
      exact h.depend field selector fun v c schema selects resolved => ih (plain.of_runs (.selected trivial selects resolved))
    | link field item => exact h.link field fun schema resolved => ih (plain.of_runs (.linked resolved))
    | computed operator v => exact Moves.pure _
    | parse encode decode inner size =>
      refine Moves.bind (h.region fun _ => ho) fun raw => (Moves.ofExcept _).bind fun decoded => ?_
      have content := h.candidate fun schema resolved => ih (plain.of_runs (.inner resolved))
      exact Moves.bind (Moves.aside content _) fun result => Moves.pure _
    | exit | custom _ => exact absurd plain.here (by simp [Schema.mayLeave])

/-- So does writing. -/
theorem pack_stays (depth : Nat) {site : Site}
    (plain : Site.Throughout Γ.registry .any (fun site => site.schema.mayLeave = false) site) (v : Value) :
    Stays (pack Γ depth site.schema v) := by
  induction depth generalizing site v with
  | zero => exact Moves.stop _
  | succ depth ih =>
    have h := Packing.composable_moves (R := Kept)
    obtain ⟨schema, place, isParsed⟩ := site
    cases schema with
    | number kind => exact h.number kind v
    | array item count => exact h.array (fun schema v resolved => ih (plain.of_runs (.item resolved)) v) count v
    | string size => exact h.text size v
    | cstring size => exact h.terminatedText size v
    | object layout => exact (Body.scopeless_packObject _ layout v).moves
    | union layout size => exact (Body.scopeless_packUnion _ layout size v).moves
    | enums names base => exact h.enumeration names base v
    | depend field selector =>
      refine (Moves.sibling "depend" field).bind fun w => ?_
      cases selects : selector.select w with
      | error fault => exact Moves.stop _
      | ok c => exact h.candidate fun schema resolved => ih (plain.of_runs (.selected trivial selects resolved)) v
    | link field item => exact stays_packLink field item v
    | computed operator w => exact Moves.pure _
    | parse encode decode inner size =>
      have content := h.candidate fun schema resolved => ih (plain.of_runs (.inner resolved)) v
      exact Moves.bind (Packing.moves_collect content) fun plain => (Moves.ofExcept _).bind fun encoded => h.region size encoded
    | exit | custom _ => exact absurd plain.here (by simp [Schema.mayLeave])

end Codec

end WireLayout
