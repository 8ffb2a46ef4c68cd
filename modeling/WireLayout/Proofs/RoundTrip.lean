import WireLayout.Proofs.Approximation
import WireLayout.Proofs.Recovery

/-!
# Reading what was written

Every value that fits a schema is written, and is read back from its bytes no matter what lies behind them (`unpack_of_pack`). The
proof follows the judgement that the value fits. Inside an object the body that is read is the very one of the judgement, and the
body that is written holds the whole value, in which the fields so far are found as well.
-/

namespace WireLayout

open Packing

namespace Codec

section

variable {Γ : Context} {around : Option Scope} {read : Schema → Unpacking Value} {write : Schema → Value → Packing Unit}
  {fits : Option Scope → Schema → Value → Bool → Prop}

/-! ## Elements -/

/-- Values that are recovered one by one are recovered one after another. -/
theorem roundTrips_items {step : Unpacking Value} {writeStep : Value → Packing Unit} {item : Value → Bool → Prop}
    (hitem : ∀ v fires, item v fires → ∃ bytes, RoundTrips around step (writeStep v) v bytes fires) {items : List Value}
    {fires : Bool} (h : FitsItems item items fires) (done : List Value) :
    ∃ bytes, RoundTrips around (Elements.times step items.length done) (Elements.packEach writeStep items.length items)
      (done.reverse ++ items) bytes fires := by
  induction h generalizing done with
  | nil =>
    rw [List.append_nil]
    exact ⟨#[], .nothing around done.reverse⟩
  | @cons v items fires fires' first rest ih =>
    obtain ⟨bytes, hfirst⟩ := hitem v fires first
    obtain ⟨bytes', hrest⟩ := ih (v :: done)
    rw [List.reverse_cons, List.append_assoc] at hrest
    rw [List.length_cons, Elements.times_succ, Elements.packEach_succ]
    exact ⟨bytes ++ bytes', hfirst.seq hrest⟩

theorem roundTrips_elements {item : Candidate} {schema : Schema} (hc : Γ.registry.resolve item = .ok schema)
    (hitem : ∀ v fires, fits around schema v fires →
      ∃ bytes, RoundTrips around (Elements.readOne Γ read schema) (Elements.writeOne Γ write schema v) v bytes fires)
    {items : List Value} {fires : Bool} (h : FitsItems (fits around schema) items fires) :
    ∃ bytes, RoundTrips around (Elements.unpack Γ read item (some items.length)) (Elements.pack Γ write item items items.length)
      (.list items) bytes fires := by
  obtain ⟨bytes, hitems⟩ := roundTrips_items hitem h []
  refine ⟨bytes, ?_, ?_⟩
  · rw [Elements.pack_eq hc]
    exact hitems.writes
  · intro data p u hu hlies
    exact (Elements.unpack_eq_ok hc).mpr ⟨items, hitems.reads data p u hu hlies, rfl⟩

theorem roundTrips_array {item : Candidate} {count : Count} {schema : Schema} (hc : Γ.registry.resolve item = .ok schema)
    (hitem : ∀ v fires, fits around schema v fires →
      ∃ bytes, RoundTrips around (Elements.readOne Γ read schema) (Elements.writeOne Γ write schema v) v bytes fires)
    {items : List Value} {fires : Bool} (hcount : count.Says Γ.registry items.length)
    (h : FitsItems (fits around schema) items fires) :
    ∃ bytes, RoundTrips around (Elements.unpackArray Γ read item count) (Elements.packArray Γ write item count (.list items))
      (.list items) bytes fires := by
  obtain ⟨bytes, helements⟩ := roundTrips_elements hc hitem h
  cases count with
  | fixed n =>
    obtain rfl : items.length = n := hcount
    have hpack : Elements.packArray Γ write item (.fixed items.length) (.list items) =
        Elements.pack Γ write item items items.length := rfl
    rw [Elements.unpackArray_fixed, hpack]
    exact ⟨bytes, helements⟩
  | prefixed c =>
    obtain ⟨kind, hkind, hint, hle⟩ := hcount
    obtain ⟨bytes', hcount⟩ := roundTrips_count around hkind hint hle
    rw [Elements.unpackArray_prefixed, Elements.packArray_prefixed]
    exact ⟨bytes' ++ bytes, hcount.seq helements⟩
  | auto => exact absurd hcount id

/-! ## Dependent fields and transformed regions -/

/-- Both directions see the field that the judgement saw, so the same schema is selected. -/
theorem roundTrips_depend {field : String} {selector : Selector} {scope : Scope} {dependent : Value} {c : Candidate}
    {schema : Schema} {v : Value} {bytes : Bytes} {fires : Bool} (hinside : around = some scope)
    (hfound : scope.field? field = some dependent) (hselect : selector.select dependent = .ok c)
    (hc : Γ.registry.resolve c = .ok schema) (h : RoundTrips around (read schema) (write schema v) v bytes fires) :
    RoundTrips around (Sibling.unpackDepend Γ read field selector) (Sibling.packDepend Γ write field selector v) v bytes fires where
  writes out w hw := by
    have happends := h.writes out w hw
    obtain ⟨t, rfl, hsees⟩ := hw scope hinside
    unfold Appends at *
    rw [Sibling.packDepend_apply (hsees field dependent hfound) hselect hc]
    exact happends
  reads data p u hu hlies := by
    have hread := h.reads data p u hu hlies
    obtain ⟨t, rfl, hsees⟩ := hu scope hinside
    exact Sibling.unpackDepend_eq_ok.mpr
      ⟨t, dependent, c, schema, rfl, hsees field dependent hfound, hselect, hc, hread⟩

/-- The inner schema runs over its own bytes, but in the body around. -/
theorem roundTrips_transform {encode decode : Transcoder} {inner : Candidate} {size : Count} {schema : Schema} {v : Value}
    {fires : Bool} (hc : Γ.registry.resolve inner = .ok schema) (hundoes : decode.Undoes encode) {plain : Bytes}
    (hinner : RoundTrips around (read schema) (write schema v) v plain fires)
    (hsized : ∀ encoded, encode.apply plain = .ok encoded → size.Says Γ.registry encoded.size) :
    ∃ bytes, RoundTrips around (Transform.unpack Γ read decode inner size) (Transform.pack Γ write encode inner size v) v bytes
      fires := by
  obtain ⟨encoded, hencode, hdecode⟩ := hundoes plain
  obtain ⟨bytes, hregion⟩ := roundTrips_region around (hsized encoded hencode)
  refine ⟨bytes, ?_, ?_⟩
  · intro out w hw
    have hplain := hinner.writes #[] w hw
    have hcollect : Packing.collect (Packing.candidate Γ write inner v) ⟨out, w⟩ = .ok (plain, ⟨out, leaves fires w⟩) := by
      unfold Appends at hplain
      rw [Packing.candidate_eq hc, Packing.collect, Walk.bind_apply]
      simp only [Walk.aside, hplain, Array.empty_append, Walk.pure_apply]
    have hstored := hregion.writes out (leaves fires w) (hw.leaves fires)
    rw [Transform.pack]
    unfold Appends at *
    rw [Walk.bind_apply, hcollect]
    dsimp only
    rw [hencode, Walk.ofExcept, pure_bind, hstored, leaves_false]
  · intro data p u hu hlies
    have hraw := hregion.reads data p u hu hlies
    have hread := hinner.reads plain 0 u hu (.self plain)
    rw [Transform.unpack, Walk.bind_apply, hraw, leaves_false]
    dsimp only
    rw [hdecode, Walk.ofExcept, pure_bind, Walk.bind_apply]
    simp only [Walk.aside, Unpacking.candidate_eq hc, Cursor.ofBytes, hread, Walk.pure_apply]

/-! ## Objects -/

section

variable {layout : Layout} {before rest : Keyed Candidate} {key : String} {c : Candidate} {schema : Schema} {scope : Scope}
  {contents values : List Value} {v : Value} {bytes : Bytes} {fires : Bool}

/-- A field is written in a body that holds the whole value, because what the field was judged by is found there. -/
theorem packFields_field (hwf : layout.WellFormed) (split : layout.entries = before ++ (key, c) :: rest)
    (hlength : contents.length = before.length) (hvalue : scope.value = layout.valueOf contents)
    (hc : Γ.registry.resolve c = .ok schema) (h : RoundTrips (some scope) (read schema) (write schema v) v bytes fires)
    (more : List Value) {w : Scope} (hexit : w.isExited = false) (hw : w.value = layout.valueOf (contents ++ v :: more))
    (out : Bytes) (around : Option Scope) :
    Body.packFields (Packing.candidate Γ write) (layout.valueOf (contents ++ v :: more)) ((key, c) :: rest) w ⟨out, around⟩ =
      Body.packFields (Packing.candidate Γ write) (layout.valueOf (contents ++ v :: more)) rest
        ((w.mark key out.size).leave fires) ⟨out ++ bytes, around⟩ := by
  have hcontent : ((layout.valueOf (contents ++ v :: more)).get? key).getD .null = v := by
    rw [Layout.get?_valueOf hwf split hlength v more]
    rfl
  have hsees : scope.Sees (w.mark key out.size) := Scope.sees_of_value hvalue hw
  refine Body.packFields_cons hexit ?_ around
  rw [hcontent, Packing.candidate_eq hc]
  refine h.writes out _ ?_
  intro s hs
  cases hs
  exact ⟨_, rfl, hsees⟩

/-- A field is read in the body that it was judged by. -/
theorem unpackFields_field (hc : Γ.registry.resolve c = .ok schema)
    (h : RoundTrips (some scope) (read schema) (write schema v) v bytes fires) (hexit : scope.isExited = false) {data : Bytes}
    {p : Nat} (hlies : bytes.LiesAt data p) {around : Option Scope} {r : Scope × WalkState Cursor}
    (hrest : Body.unpackFields (Unpacking.candidate Γ read) rest ((scope.leave fires).push key v)
      ⟨⟨data, p + bytes.size⟩, around⟩ = .ok r) :
    Body.unpackFields (Unpacking.candidate Γ read) ((key, c) :: rest) scope ⟨⟨data, p⟩, around⟩ = .ok r := by
  have hread := h.reads data p (some scope) (Shows.refl _) hlies
  have hfield := Unpacking.candidate_eq_ok.mpr ⟨schema, hc, hread⟩
  exact (Body.unpackFields_cons_eq_ok hexit).mpr ⟨v, _, hfield, hrest⟩

/-- Fields whose contents fit are written, and their contents are read back. -/
theorem roundTrips_fields (hwf : layout.WellFormed)
    (hfield : ∀ scope schema v fires, fits (some scope) schema v fires →
      ∃ bytes, RoundTrips (some scope) (read schema) (write schema v) v bytes fires)
    {entries : Keyed Candidate} (h : FitsFields Γ fits scope entries values) (split : layout.entries = before ++ entries)
    (hlength : contents.length = before.length) (hvalue : scope.value = layout.valueOf contents)
    (hexit : scope.isExited = false) :
    ∃ bytes : Bytes,
      (∀ w out around, w.isExited = false → w.value = layout.valueOf (contents ++ values) →
        Body.packFields (Packing.candidate Γ write) (layout.valueOf (contents ++ values)) entries w ⟨out, around⟩ =
          .ok ((), ⟨out ++ bytes, around⟩)) ∧
      ∀ data p around, bytes.LiesAt data p →
        ∃ scope', Body.unpackFields (Unpacking.candidate Γ read) entries scope ⟨⟨data, p⟩, around⟩ =
            .ok (scope', ⟨⟨data, p + bytes.size⟩, around⟩) ∧ scope'.value = layout.valueOf (contents ++ values) := by
  induction h generalizing before contents with
  | @nil scope =>
    refine ⟨#[], fun w out around _ _ => ?_, fun data p around _ => ⟨scope, rfl, ?_⟩⟩
    · rw [Array.append_empty]
      rfl
    · rw [List.append_nil, hvalue]
  | @next scope key c schema v rest values hc first _ ih =>
    obtain ⟨bytes, htrip⟩ := hfield scope schema v false first
    have hlength' := Keyed.length_next hlength v (key, c)
    have hvalue' := Layout.push_value hwf split hlength hvalue v
    have hexit' : (scope.push key v).isExited = false := by rw [Scope.isExited_push, hexit]
    obtain ⟨bytes', hwrites, hreads⟩ := ih (Keyed.split_next split) hlength' hvalue' hexit'
    rw [← List.append_cons] at hwrites hreads
    refine ⟨bytes ++ bytes', ?_, ?_⟩
    · intro w out around hw hwvalue
      rw [packFields_field hwf split hlength hvalue hc htrip values hw hwvalue, ← Array.append_assoc, Scope.leave_false]
      exact hwrites _ _ around hw hwvalue
    · intro data p around hlies
      obtain ⟨scope', hread, hfinal⟩ := hreads data (p + bytes.size) around hlies.right
      rw [← Scope.leave_false scope, Nat.add_assoc, ← Array.size_append] at hread
      exact ⟨scope', unpackFields_field hc htrip hexit hlies.left hread, hfinal⟩
  | @exit scope key c schema v rest hc first =>
    obtain ⟨bytes, htrip⟩ := hfield scope schema v true first
    have hlength' := Keyed.length_next hlength v (key, c)
    have hleft : (scope.leave true).value = layout.valueOf contents := hvalue
    have hvalue' := Layout.push_value hwf split hlength hleft v
    have hexit' : ((scope.leave true).push key v).isExited = true := by
      rw [Scope.isExited_push, Scope.leave_true]
      rfl
    refine ⟨bytes, ?_, ?_⟩
    · intro w out around hw hwvalue
      rw [packFields_field hwf split hlength hvalue hc htrip _ hw hwvalue]
      exact Body.packFields_exited (by rw [Scope.leave_true]; rfl) _
    · intro data p around hlies
      obtain ⟨scope', hread, hfinal⟩ :=
        Body.unpackFields_exited hwf (Keyed.split_next split) hlength' hvalue' hexit' ⟨⟨data, p + bytes.size⟩, around⟩
      rw [List.append_assoc] at hfinal
      exact ⟨scope', unpackFields_field hc htrip hexit hlies hread, hfinal⟩

end

theorem roundTrips_object {layout : Layout} (hwf : layout.WellFormed)
    (hfield : ∀ scope schema v fires, fits (some scope) schema v fires →
      ∃ bytes, RoundTrips (some scope) (read schema) (write schema v) v bytes fires)
    {values : List Value} (h : FitsFields Γ fits (.reading layout) layout.entries values) :
    ∃ bytes, RoundTrips around (Body.unpackObject (Unpacking.candidate Γ read) layout)
      (Body.packObject (Packing.candidate Γ write) layout (layout.valueOf values)) (layout.valueOf values) bytes false := by
  have hstart : (Scope.reading layout).value = layout.valueOf [] := layout.valueOf_nil.symm
  obtain ⟨bytes, hwrites, hreads⟩ := roundTrips_fields hwf hfield h (List.nil_append _).symm rfl hstart rfl
  rw [List.nil_append] at hwrites hreads
  refine ⟨bytes, ?_, ?_⟩
  · intro out w _
    unfold Appends
    rw [Body.packObject_valueOf, leaves_false]
    exact hwrites _ out w rfl rfl
  · intro data p u _ hlies
    obtain ⟨scope, hfields, hvalue⟩ := hreads data p u hlies
    rw [Body.unpackObject, Walk.bind_apply, hfields, leaves_false]
    dsimp only
    rw [hvalue]
    rfl

end

/-! ## Every schema -/

variable {Γ : Context}

/-- A value that fits is written, whatever is in the output already, and is read back from its bytes, wherever they lie. -/
theorem Fits.roundTrips {depth : Nat} {around : Option Scope} {schema : Schema} {v : Value} {fires : Bool}
    (h : Fits Γ depth around schema v fires) :
    ∃ bytes, RoundTrips around (unpack Γ depth schema) (pack Γ depth schema v) v bytes fires := by
  induction depth generalizing around schema v fires with
  | zero => exact absurd h id
  | succ depth ih =>
    have hfield : ∀ scope schema v fires, Fits Γ depth (some scope) schema v fires →
        ∃ bytes, RoundTrips (some scope) (unpack Γ depth schema) (pack Γ depth schema v) v bytes fires :=
      fun scope schema v fires hfits => ih hfits
    have hitem : ∀ schema v fires, Fits Γ depth around schema v fires → ∃ bytes,
        RoundTrips around (Elements.readOne Γ (unpack Γ depth) schema) (Elements.writeOne Γ (pack Γ depth) schema v) v bytes
          fires := by
      intro schema v fires hfits
      cases depth with
      | zero => exact absurd hfits id
      | succ depth =>
        rw [Elements.readOne_unpack, Elements.writeOne_pack]
        exact ih hfits
    have hstep : FitsStep Γ (Fits Γ depth) (pack Γ depth) around schema v fires := h
    cases hstep with
    | number stores => exact roundTrips_number Γ around stores
    | array resolved counted elements => exact roundTrips_array resolved (hitem _) counted elements
    | string stores => exact roundTrips_text stores
    | cstring stores => exact roundTrips_terminatedText stores
    | object wellFormed fields => exact roundTrips_object wellFormed hfield fields
    | enums resolved named stores => exact roundTrips_enumeration resolved named stores
    | depend inside found selects resolved selected =>
      obtain ⟨bytes, htrip⟩ := ih selected
      exact ⟨bytes, roundTrips_depend inside found selects resolved htrip⟩
    | @computed operator w => exact ⟨#[], .nothing around (operator.apply w)⟩
    | exit inside =>
      refine ⟨#[], ?_, ?_⟩
      · intro out w hw
        obtain ⟨t, rfl, -⟩ := hw _ inside
        exact .exitScope "exit" out t
      · intro data p u hu _
        obtain ⟨t, rfl, -⟩ := hu _ inside
        rw [leaves, Option.map_some, Scope.leave_true]
        rfl
    | parse resolved undoes fit sized =>
      obtain ⟨plain, hinner⟩ := ih fit
      refine roundTrips_transform resolved undoes hinner ?_
      intro encoded hencoded
      exact sized _ encoded _ (hinner.writes #[] around (Shows.refl around)) (by rw [Array.empty_append]; exact hencoded)

/-- Encoding, then decoding: a value that fits its schema is written as some bytes, and whatever lies behind these bytes, reading
from them gives exactly that value and moves just past them. -/
theorem unpack_of_pack {c : Candidate} {schema : Schema} (hc : Γ.registry.resolve c = .ok schema) {depth : Nat}
    (hdepth : depth ≤ Γ.registry.limits.depth) {v : Value} {fires : Bool} (hfits : Fits Γ depth none schema v fires) :
    ∃ bytes, Γ.registry.packWith c v Γ.options = .ok bytes ∧
      ∀ rest, unpackCandidate Γ c ⟨Cursor.ofBytes (bytes ++ rest), none⟩ = .ok (v, ⟨⟨bytes ++ rest, bytes.size⟩, none⟩) := by
  obtain ⟨bytes, htrip⟩ := hfits.roundTrips
  refine ⟨bytes, ?_, ?_⟩
  · have hpack := (pack_approximates_of_le hdepth schema v).eq_ok (htrip.writes #[] none (Shows.refl none))
    rw [Registry.packWith, packCandidate, Packing.candidate_eq hc, hpack, Array.empty_append]
    rfl
  · intro rest
    have hread := htrip.reads (bytes ++ rest) 0 none (Shows.refl none) (.append bytes rest)
    have hunpack := (unpack_approximates_of_le hdepth schema).eq_ok hread
    rw [Nat.zero_add] at hunpack
    exact Unpacking.candidate_eq_ok.mpr ⟨schema, hc, hunpack⟩

/-- A signal takes six bytes, and is read from them. -/
theorem unpack_of_pack_signal :
    Message.context.registry.packWith (.schema Message.schema) Message.signal Message.context.options =
        .ok #[97, 0, 1, 253, 248, 246] ∧
      ∀ rest, unpackCandidate Message.context (.schema Message.schema)
          ⟨Cursor.ofBytes (#[97, 0, 1, 253, 248, 246] ++ rest), none⟩ =
        .ok (Message.signal, ⟨⟨#[97, 0, 1, 253, 248, 246] ++ rest, 6⟩, none⟩) := by
  have hresolve : Message.context.registry.resolve (.schema Message.schema) = .ok Message.schema := rfl
  obtain ⟨bytes, hpack, hread⟩ := unpack_of_pack hresolve (by decide) Message.fits_signal
  have hbytes : Message.context.registry.packWith (.schema Message.schema) Message.signal Message.context.options =
      .ok #[97, 0, 1, 253, 248, 246] := by
    rfl
  cases hbytes.symm.trans hpack
  exact ⟨hbytes, hread⟩

end Codec

end WireLayout
