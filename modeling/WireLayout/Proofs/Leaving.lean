import WireLayout.Proofs.Appending
import WireLayout.Proofs.Moving

/-!
# What a run does to the body around

Whatever runs in a body can leave it, and can do nothing else to it: the layout, the value and the noted places are as before
(`unpack_leaves`, `pack_leaves`). This holds of every schema, those defined by the user included, because an extension can ask for
nothing that would do more.
-/

namespace WireLayout

/-- The same body, left or not. -/
def Left (scope scope' : Option Scope) : Prop := ∃ fires, scope' = leaves fires scope

instance : IsPreorder (Option Scope) Left where
  refl scope := ⟨false, (leaves_false scope).symm⟩
  trans _ _ _ h h' := by
    obtain ⟨fires, rfl⟩ := h
    obtain ⟨fires', rfl⟩ := h'
    exact ⟨fires || fires', leaves_leaves ..⟩

namespace Walk

variable {μ α β : Type}

/-- Successful runs leave the body around or not, and do nothing else to it. -/
abbrev Leaves (step : Walk μ α) : Prop := Moves Left step

theorem Leaves.exitScope (kind : String) : Leaves (Walk.exitScope kind : Walk μ Unit) := by
  intro ⟨medium, scope⟩ a s' hs
  cases scope with
  | none => cases hs
  | some scope =>
    cases hs
    exact ⟨true, congrArg some scope.leave_true.symm⟩

theorem Leaves.resolve {Γ : Context} {c : Candidate} {next : Schema → Walk μ α} (hnext : ∀ schema, Leaves (next schema)) :
    Leaves (Walk.resolve Γ c >>= next) := Moves.resolve fun schema _ => hnext schema

end Walk

open Walk

variable {Γ : Context}

/-! ## Reading -/

section

variable {run : Schema → Unpacking Value} (hrun : ∀ schema, Leaves (run schema))

include hrun

/-- A program that reads can ask for nothing but bytes, values, and an end of the body around. -/
theorem leaves_reader (reader : Reader) : Leaves (Extension.unpack Γ run reader) := by
  induction reader using Extension.unpack.induct with
  | case1 v => exact Moves.pure _
  | case2 fault => exact Moves.stop _
  | case3 n next ih => exact (Moves.onMedium _).bind ih
  | case4 position next ih => exact (Moves.onMedium _).bind fun _ => ih
  | case5 next ih =>
    refine Moves.bind ?_ ih
    intro s a s' hs
    cases hs
    exact refl_of Left _
  | case6 candidate next ih => exact (Leaves.resolve hrun).bind ih
  | case7 kind next ih => exact (Leaves.exitScope kind).bind fun _ => ih

theorem leaves_unpackStep (schema : Schema) : Leaves (Codec.unpackStep Γ run schema) := by
  have h := Unpacking.composable_moves (R := Left)
  have ho := Unpacking.openEnded_moves (R := Left)
  cases schema with
  | number kind => exact h.number kind
  | array item count => exact h.array (fun _ => ho) fun schema _ => hrun schema
  | string size => exact h.text fun _ => ho
  | cstring size => exact h.terminatedText size
  | object layout => exact (Body.scopeless_unpackObject _ layout).moves
  | union layout size => exact (Body.scopeless_unpackUnion _ layout size).moves
  | enums names base => exact h.enumeration names base
  | depend field selector => exact h.depend field selector fun _ _ schema _ _ => hrun schema
  | link field item => exact h.link field fun schema _ => hrun schema
  | computed operator v => exact Moves.pure _
  | exit => exact (Leaves.exitScope "exit").bind fun _ => Moves.pure _
  | parse encode decode inner size =>
    refine Moves.bind (h.region fun _ => ho) fun raw => (Moves.ofExcept _).bind fun decoded => ?_
    exact Moves.bind (Moves.aside (Leaves.resolve hrun) _) fun result => Moves.pure _
  | custom extension => exact leaves_reader hrun extension.read

end

/-! ## Writing -/

section

variable {run : Schema → Value → Packing Unit}

theorem compositional_leaves : Packing.Compositional fun _ step => Leaves step where
  toComposable := Packing.composable_moves
  exitScope kind := Leaves.exitScope kind

variable (hrun : ∀ schema v, Leaves (run schema v))

include hrun

theorem leaves_packLink (field : String) (item : Candidate) (v : Value) : Leaves (Sibling.packLink Γ run field item v) := by
  have h := compositional_leaves
  refine Moves.bind (h.elementsOf v) fun items => (Moves.requireScope "link").bind fun scope => ?_
  split
  · refine Moves.bind ?_ fun count => Moves.bind ?_ fun _ => h.elements (fun schema v _ => hrun schema v) items _
    · refine Leaves.resolve fun schema => ?_
      split
      · exact Packing.moves_collect (h.appends (Number.written_packCount _ _ _))
      · exact Packing.moves_collect (hrun _ _)
    · intro s a s' hs
      cases hs
      exact refl_of Left _
  · exact Moves.stop _

/-- A program that writes can ask for nothing but bytes, values, and an end of the body around. -/
theorem leaves_writer (writer : Writer) : Leaves (Extension.pack Γ run writer) := by
  induction writer using Extension.pack.induct with
  | case1 => exact Moves.pure _
  | case2 fault => exact Moves.stop _
  | case3 bytes next ih => exact Moves.bind (compositional_leaves.emit bytes) fun _ => ih
  | case4 next ih =>
    refine Moves.bind ?_ ih
    intro s a s' hs
    cases hs
    exact refl_of Left _
  | case5 candidate v next ih => exact (Leaves.resolve fun schema => hrun schema v).bind fun _ => ih
  | case6 kind next ih => exact (Leaves.exitScope kind).bind fun _ => ih

theorem leaves_packStep (schema : Schema) (v : Value) : Leaves (Codec.packStep Γ run schema v) := by
  have h := compositional_leaves
  cases schema with
  | number kind => exact h.number kind v
  | array item count => exact h.array (fun schema v _ => hrun schema v) count v
  | string size => exact h.text size v
  | cstring size => exact h.terminatedText size v
  | object layout => exact (Body.scopeless_packObject _ layout v).moves
  | union layout size => exact h.union _ layout size v
  | enums names base => exact h.enumeration names base v
  | depend field selector =>
    exact (Moves.sibling "depend" field).bind fun w => (Moves.ofExcept _).bind fun c => h.candidate fun schema _ => hrun schema v
  | link field item => exact leaves_packLink hrun field item v
  | computed operator w => exact Moves.pure _
  | exit => exact Leaves.exitScope "exit"
  | parse encode decode inner size =>
    refine Moves.bind (Packing.moves_collect (h.candidate fun schema _ => hrun schema v)) fun plain => ?_
    exact (Moves.ofExcept _).bind fun encoded => h.region size encoded
  | custom extension => exact leaves_writer hrun (extension.write v)

end

namespace Codec

/-- Reading a schema leaves the body around or not, and does nothing else to it. -/
theorem unpack_leaves (depth : Nat) (schema : Schema) : Leaves (unpack Γ depth schema) := by
  induction depth generalizing schema with
  | zero => exact Moves.stop _
  | succ depth ih => exact leaves_unpackStep ih schema

/-- So does writing one. -/
theorem pack_leaves (depth : Nat) (schema : Schema) (v : Value) : Leaves (pack Γ depth schema v) := by
  induction depth generalizing schema v with
  | zero => exact Moves.stop _
  | succ depth ih => exact leaves_packStep ih schema v

end Codec

end WireLayout
