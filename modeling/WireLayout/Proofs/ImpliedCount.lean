import WireLayout.Proofs.FixedCount
import WireLayout.Proofs.PairOrder
import WireLayout.Proofs.ReadingToEnd
import WireLayout.Proofs.RoundTrip
import Mathlib.Data.List.Forall2

/-!
# Arrays without a count

An array without a count is nothing but its elements, one after another, and is read to the end of the input. Where every element takes
a byte and is read back from its own bytes, the boundaries between them are found again (`Elements.reads_concat`), so a list whose values fit is
packed to what they are packed to, one by one, and read back from exactly these bytes (`Codec.unpack_impliedCount`).
-/

namespace WireLayout

open Packing

/-- What is written and read back at some depth is at any larger one. -/
theorem RoundTrips.deepen {Γ : Context} {depth depth' : Nat} (h : depth ≤ depth') {around : Option Scope} {schema : Schema} {v : Value}
    {bytes : Bytes} {fires : Bool} (trip : RoundTrips around (Codec.unpack Γ depth schema) (Codec.pack Γ depth schema v) v bytes fires) :
    RoundTrips around (Codec.unpack Γ depth' schema) (Codec.pack Γ depth' schema v) v bytes fires where
  writes out w hw := (Codec.pack_approximates_of_le h schema v).eq_ok (trip.writes out w hw)
  reads data p u hu hlies := (Codec.unpack_approximates_of_le h schema).eq_ok (trip.reads data p u hu hlies)

namespace Elements

/-- An element takes these bytes, one at least, and is read back from them. -/
def TakesBack (step : Unpacking Value) (writeStep : Value → Packing Unit) (v : Value) (part : Bytes) : Prop :=
  RoundTrips none step (writeStep v) v part false ∧ 0 < part.size

variable {step : Unpacking Value} {writeStep : Value → Packing Unit} {values : List Value} {parts : List Bytes}

/-- Elements are written one after another. -/
theorem appends_concat (h : List.Forall₂ (TakesBack step writeStep) values parts) (out : Bytes) (scope : Option Scope) :
    Appends (packEach writeStep values.length values) out scope (Bytes.concat parts) false := by
  induction h generalizing out scope with
  | nil => exact .nothing out scope
  | @cons v part values parts first rest ih =>
    rw [List.length_cons, packEach_succ]
    exact (first.1.writes out scope (.none scope)).seq (ih _ _)

/-- Elements are found again in what they were written as: each is read from its own bytes, and ends where the next one begins. -/
theorem reads_concat (h : List.Forall₂ (TakesBack step writeStep) values parts) {data : Bytes} {p : Nat} (scope : Option Scope)
    (hlies : (Bytes.concat parts).LiesAt data p) :
    ∃ trace, Reads step ⟨⟨data, p⟩, scope⟩ trace ⟨⟨data, p + (Bytes.concat parts).size⟩, scope⟩ ∧ trace.map Prod.snd = values := by
  induction h generalizing p with
  | nil => exact ⟨[], .nil, rfl⟩
  | @cons v part values parts first rest ih =>
    obtain ⟨htrip, hpos⟩ := first
    have hlies' : (part ++ Bytes.concat parts).LiesAt data p := hlies
    have hread := htrip.reads data p scope (.none scope) hlies'.left
    rw [leaves_false] at hread
    obtain ⟨trace, hreads, hvalues⟩ := ih hlies'.right
    have hend : p + (Bytes.concat (part :: parts)).size = p + part.size + (Bytes.concat parts).size := by
      show p + (part ++ Bytes.concat parts).size = _
      rw [Array.size_append, Nat.add_assoc]
    have hinside : p + part.size ≤ data.size := by
      have hle := hlies'.left.le
      omega
    rw [hend]
    exact ⟨_, .cons hread rfl (Nat.lt_add_of_pos_right hpos) hinside hreads, congrArg (v :: ·) hvalues⟩

end Elements

namespace Codec

variable {Γ : Context} {item : Candidate} {schema : Schema}

/-- What is appended to nothing is what a value is packed to. -/
theorem packed_of_appends {depth : Nat} {v : Value} {bytes : Bytes} {fires : Bool}
    (h : Appends (pack Γ depth schema v) #[] none bytes fires) : packed Γ depth schema v = .ok bytes := by
  unfold Appends at h
  rw [Array.empty_append] at h
  exact packed_eq_ok.mpr ⟨_, h⟩

/-- What fits is written as an element and read back, at any larger depth, and its bytes are those that it is packed to by itself. -/
theorem Fits.exists_part {depth depth' : Nat} (h : depth ≤ depth') {w : Value} (fits : Fits Γ depth none schema w false) :
    ∃ part, RoundTrips none (Elements.readOne Γ (unpack Γ depth') schema) (Elements.writeOne Γ (pack Γ depth') schema w) w part false ∧
      packed Γ (depth' + 1) schema w = .ok part := by
  obtain ⟨part, trip⟩ := fits.roundTrips
  refine ⟨part, ?_, ?_⟩
  · cases depth' with
    | zero =>
      cases Nat.le_zero.mp h
      exact absurd fits id
    | succ depth' =>
      rw [Elements.readOne_unpack, Elements.writeOne_pack]
      exact trip.deepen h
  · exact packed_of_appends ((trip.deepen (Nat.le_succ_of_le h)).writes #[] none (.none none))

/-- What values are packed to one by one is what those that fit, but for the order of pairs, are read back from. -/
theorem exists_parts (resolved : Γ.registry.resolve item = .ok schema)
    (blind : Site.Throughout Γ.registry .any (fun site => site.schema.seesOrder = false) (.top schema)) {depth most : Nat}
    (hmost : Γ.registry.limits.depth = most + 1) (below : depth ≤ most) {values ordered : List Value}
    (same : Value.ReorderedItems values ordered) (fits : ∀ w ∈ ordered, Fits Γ depth none schema w false)
    (nonempty : ∀ v ∈ values, Γ.registry.packWith item v Γ.options ≠ .ok #[]) :
    ∃ parts, values.mapM (fun v => Γ.registry.packWith item v Γ.options) = .ok parts ∧
      List.Forall₂ (Elements.TakesBack (Elements.readOne Γ (unpack Γ most) schema) (Elements.writeOne Γ (pack Γ most) schema))
        ordered parts := by
  induction values generalizing ordered with
  | nil =>
    cases same
    exact ⟨[], rfl, .nil⟩
  | cons v values ih =>
    cases same with
    | @cons _ w _ ordered first others =>
      obtain ⟨parts, hparts, hback⟩ := ih others (fun w hw => fits w (List.mem_cons_of_mem _ hw))
        fun v hv => nonempty v (List.mem_cons_of_mem _ hv)
      obtain ⟨part, htrip, hw⟩ := (fits w List.mem_cons_self).exists_part below
      have hv : Γ.registry.packWith item v Γ.options = .ok part := by
        rw [packWith_of_resolve resolved, hmost]
        exact packed_of_reordered blind first hw
      have hpos : 0 < part.size := by
        refine Nat.pos_of_ne_zero fun hzero => nonempty v List.mem_cons_self ?_
        rw [hv, Array.eq_empty_of_size_eq_zero hzero]
      refine ⟨part :: parts, ?_, .cons ⟨htrip, hpos⟩ hback⟩
      rw [List.mapM_cons, hv, hparts]
      rfl

/-- An array without a count, of values that fit and take a byte each, is packed to what its values are packed to, one after another, and
read back from exactly these bytes, up to their end. A record reads with its pairs in the order of its layout, so the values need only be
ones that fit but for that order. -/
theorem unpack_impliedCount (resolved : Γ.registry.resolve item = .ok schema)
    (blind : Site.Throughout Γ.registry .any (fun site => site.schema.seesOrder = false) (.top schema)) {depth : Nat}
    (below : depth < Γ.registry.limits.depth) {values ordered : List Value} (same : Value.ReorderedItems values ordered)
    (fits : ∀ w ∈ ordered, Fits Γ depth none schema w false)
    (nonempty : ∀ v ∈ values, Γ.registry.packWith item v Γ.options ≠ .ok #[]) :
    ∃ parts, values.mapM (fun v => Γ.registry.packWith item v Γ.options) = .ok parts ∧
      Γ.registry.packWith (.array item .auto) (.list values) Γ.options = .ok (Bytes.concat parts) ∧
      unpackCandidate Γ (.array item .auto) ⟨Cursor.ofBytes (Bytes.concat parts), none⟩ =
        .ok (.list ordered, ⟨⟨Bytes.concat parts, (Bytes.concat parts).size⟩, none⟩) := by
  obtain ⟨most, hmost⟩ := Nat.exists_eq_succ_of_ne_zero (Nat.ne_of_gt (Nat.zero_lt_of_lt below))
  rw [hmost] at below
  obtain ⟨parts, hparts, hback⟩ := exists_parts resolved blind hmost (Nat.le_of_lt_succ below) same fits nonempty
  refine ⟨parts, hparts, ?_, ?_⟩
  · have hordered : packed Γ (most + 1) (.array item .auto) (.list ordered) = .ok (Bytes.concat parts) := by
      have hwrites := Elements.appends_concat hback #[] none
      rw [← Elements.pack_eq resolved] at hwrites
      exact packed_of_appends hwrites
    have blindArray : Site.Throughout Γ.registry .any (fun site => site.schema.seesOrder = false) (.top (.array item .auto)) := by
      refine Site.throughout_array rfl ?_
      intro schema' resolved'
      cases resolved.symm.trans resolved'
      exact blind
    rw [Candidate.array, packWith_eq_packed, hmost]
    exact packed_of_reordered blindArray (.list same) hordered
  · obtain ⟨trace, hreads, hvalues⟩ := Elements.reads_concat hback none (.self (Bytes.concat parts))
    rw [Nat.zero_add] at hreads
    have hleft : (Cursor.mk (Bytes.concat parts) (Bytes.concat parts).size).remaining = 0 := Nat.sub_self _
    have hunpack := hreads.unpack resolved (.short (hleft ▸ schema.room_pos))
    rw [hvalues, ← Elements.unpackArray_auto] at hunpack
    rw [unpackCandidate, Candidate.array, Unpacking.candidate_eq rfl, hmost]
    exact hunpack

/-- Names end at their terminators, so two of them are found again without a count. -/
theorem unpack_impliedCount_names :
    (∃ parts, [Value.text "a", .text "bc"].mapM (fun v => Registry.standard.packWith (.cstring .auto) v .littleEndian) = .ok parts ∧
      Registry.standard.packWith (.array (.cstring .auto) .auto) (.list [.text "a", .text "bc"]) .littleEndian =
        .ok (Bytes.concat parts) ∧
      unpackCandidate Message.context (.array (.cstring .auto) .auto) ⟨Cursor.ofBytes (Bytes.concat parts), none⟩ =
        .ok (.list [.text "a", .text "bc"], ⟨⟨Bytes.concat parts, (Bytes.concat parts).size⟩, none⟩)) ∧
      Registry.standard.packWith (.array (.cstring .auto) .auto) (.list [.text "a", .text "bc"]) .littleEndian =
        .ok #[97, 0, 98, 99, 0] := by
  have hfirst : Fits Message.context 1 none (.cstring .auto) (.text "a") false := .cstring ⟨by decide, #[97], by decide, trivial⟩
  have hsecond : Fits Message.context 1 none (.cstring .auto) (.text "bc") false := .cstring ⟨by decide, #[98, 99], by decide, trivial⟩
  have hblind : Site.Throughout Message.context.registry .any (fun site => site.schema.seesOrder = false) (.top (.cstring .auto)) :=
    Site.throughout_intro rfl fun _ hr => nomatch hr
  have hbytes : Registry.standard.packWith (.cstring .auto) (.text "a") .littleEndian = .ok #[97, 0] ∧
      Registry.standard.packWith (.cstring .auto) (.text "bc") .littleEndian = .ok #[98, 99, 0] := ⟨rfl, rfl⟩
  refine ⟨@unpack_impliedCount Message.context (.cstring .auto) _ rfl hblind 1 (by decide) [.text "a", .text "bc"] _
    (.cons (.text _) (.cons (.text _) .nil)) ?_ ?_, rfl⟩
  · rintro w hw
    simp only [List.mem_cons, List.not_mem_nil, or_false] at hw
    rcases hw with rfl | rfl
    · exact hfirst
    · exact hsecond
  · rintro v hv hempty
    simp only [List.mem_cons, List.not_mem_nil, or_false] at hv
    rcases hv with rfl | rfl
    · cases hbytes.1.symm.trans hempty
    · cases hbytes.2.symm.trans hempty

end Codec

end WireLayout
