import WireLayout.Proofs.Reversal

/-!
# Canonical formats

In a format where every value has one encoding, whatever is read is written as the bytes that were read (`pack_of_unpack`). What a
schema must be for this depends on where it stands (`Site.Reversible`): counts are explicit, names in an enumeration are distinct,
and a linked array has its count in an earlier field of an integer kind. A selector may then rely on such fields to hold integers.
-/

namespace WireLayout

open Packing

/-- A selector sees integers in the earlier fields of integer kinds. -/
def Sight.typed (r : Registry) : Sight := fun place field v =>
  ∀ p c kind, place = some p → (field, c) ∈ p.before → r.resolve c = .ok (.number kind) → kind.isFloat = false →
    ∃ n, v = .int n ∧ kind.Stores n

/-- The schema, where it stands, has one way to write each value that it reads. -/
def Site.Reversible (r : Registry) (site : Site) : Prop :=
  match site.schema with
  | .number kind => kind.isFloat = false
  | .array _ count => count.IsExplicit r
  | .string size => size.IsExplicit r
  | .cstring size => size = .auto
  | .object layout => layout.WellFormed
  | .enums names base => (Keyed.keys names).Nodup ∧ ∀ kind, r.resolve base = .ok (.number kind) → kind.isFloat = false
  | .link field _ =>
    ∃ place c kind, site.place = some place ∧ (field, c) ∈ place.before ∧ r.resolve c = .ok (.number kind) ∧ kind.isFloat = false
  | .depend _ _ | .computed _ _ | .exit => True
  | .union _ _ | .parse _ _ _ _ | .custom _ => False

section

variable {Γ : Context} {place : Option Place} {data : Bytes} {p : Nat} {u : Option Scope} {s : WalkState Cursor}
  {read : Schema → Unpacking Value} {write : Schema → Value → Packing Unit}

/-- What is read one after another is written one after another. -/
theorem reversed_times {step : Unpacking Value} {writeStep : Value → Packing Unit} (h : Reverses Γ place step writeStep)
    {count : Nat} {done values : List Value} (htyped : Typed Γ.registry place u)
    (hrun : Elements.times step count done ⟨⟨data, p⟩, u⟩ = .ok (values, s)) :
    ∃ items q fires, values = done.reverse ++ items ∧ items.length = count ∧
      Reversed Γ place data p u s (Elements.packEach writeStep count items) q fires := by
  induction count generalizing done p u with
  | zero =>
    cases hrun
    exact ⟨[], p, false, (List.append_nil _).symm, rfl, .nothing place data p u⟩
  | succ count ih =>
    rw [Elements.times_succ] at hrun
    obtain ⟨v, s₁, hv, hrest⟩ := Walk.bind_eq_ok.mp hrun
    obtain ⟨m, fires, hfirst⟩ := h data p u v s₁ htyped hv
    rw [hfirst.state] at hrest
    obtain ⟨items, q, fires', hvalues, hlength, hnext⟩ := ih (htyped.leaves fires) hrest
    refine ⟨v :: items, q, fires || fires', ?_, congrArg Nat.succ hlength, ?_⟩
    · rw [hvalues, List.reverse_cons, List.append_assoc]
      rfl
    · rw [Elements.packEach_succ]
      exact hfirst.seq hnext

theorem reverses_number {kind : Number} (hint : kind.isFloat = false) :
    Reverses Γ place (Unpacking.number Γ kind) (Packing.number Γ kind) :=
  fun _ _ _ _ _ _ hrun => ⟨_, false, reversed_number hint hrun⟩

/-- As many elements as there were are read again from what is written for them. -/
theorem reversed_elements {item : Candidate} {count : Nat} {v : Value}
    (hitem : ∀ schema, Γ.registry.resolve item = .ok schema →
      Reverses Γ place (Elements.readOne Γ read schema) (Elements.writeOne Γ write schema))
    (htyped : Typed Γ.registry place u) (hrun : Elements.unpack Γ read item (some count) ⟨⟨data, p⟩, u⟩ = .ok (v, s)) :
    ∃ items q fires, v = .list items ∧ items.length = count ∧
      Reversed Γ place data p u s (Elements.pack Γ write item items count) q fires := by
  cases hc : Γ.registry.resolve item with
  | error stop =>
    rw [Elements.unpack, Walk.resolve_bind_error hc] at hrun
    cases hrun
  | ok schema =>
    obtain ⟨items, htimes, hv⟩ := (Elements.unpack_eq_ok hc).mp hrun
    obtain ⟨items', q, fires, heq, rfl, hreversed⟩ := reversed_times (hitem schema hc) htyped htimes
    obtain rfl : items = items' := heq
    refine ⟨items, q, fires, hv, rfl, ?_⟩
    rw [Elements.pack_eq hc]
    exact hreversed

theorem reversed_array {item : Candidate} {count : Count} (hcount : count.IsExplicit Γ.registry) {v : Value}
    (hitem : ∀ schema, Γ.registry.resolve item = .ok schema →
      Reverses Γ place (Elements.readOne Γ read schema) (Elements.writeOne Γ write schema))
    (htyped : Typed Γ.registry place u) (hrun : Elements.unpackArray Γ read item count ⟨⟨data, p⟩, u⟩ = .ok (v, s)) :
    ∃ q fires, Reversed Γ place data p u s (Elements.packArray Γ write item count v) q fires := by
  cases count with
  | fixed n =>
    rw [Elements.unpackArray_fixed] at hrun
    obtain ⟨items, q, fires, rfl, rfl, hreversed⟩ := reversed_elements hitem htyped hrun
    exact ⟨q, fires, hreversed⟩
  | prefixed c =>
    rw [Elements.unpackArray_prefixed] at hrun
    obtain ⟨n, s₁, hn, hrest⟩ := Walk.bind_eq_ok.mp hrun
    obtain ⟨m, hfirst⟩ := reversed_prefixed place hcount hn
    rw [hfirst.state] at hrest
    obtain ⟨items, q, fires, rfl, rfl, hnext⟩ := reversed_elements hitem (htyped.leaves false) hrest
    rw [Elements.packArray_prefixed]
    exact ⟨q, false || fires, hfirst.seq hnext⟩
  | auto => exact absurd hcount id

/-- The selector sees the same value, so it selects the same schema. -/
theorem reversed_depend {field : String} {selector : Selector} {v : Value}
    (hselected : ∀ dependent c schema, Sight.typed Γ.registry place field dependent → selector.select dependent = .ok c →
      Γ.registry.resolve c = .ok schema → Reverses Γ place (read schema) (write schema))
    (htyped : Typed Γ.registry place u) (hrun : Sibling.unpackDepend Γ read field selector ⟨⟨data, p⟩, u⟩ = .ok (v, s)) :
    ∃ q fires, Reversed Γ place data p u s (Sibling.packDepend Γ write field selector v) q fires := by
  obtain ⟨scope, dependent, c, schema, hscope, hfield, hc, hschema, hread⟩ := Sibling.unpackDepend_eq_ok.mp hrun
  have hseen : Sight.typed Γ.registry place field dependent := by
    intro p c kind hplace hmem hc hint
    cases htyped with
    | outside => cases hplace
    | body typed =>
      cases hplace
      cases hscope
      obtain ⟨n, hn, hstores⟩ := typed field c kind hmem hc hint
      rw [hfield] at hn
      exact ⟨n, Option.some.inj hn, hstores⟩
  obtain ⟨q, fires, hreversed⟩ := hselected dependent c schema hseen hc hschema data p u v s htyped hread
  refine ⟨q, fires, hreversed.state, hreversed.forward, hreversed.inside, ?_⟩
  intro out w hw
  have happends := hreversed.writes out w hw
  cases hw with
  | outside => cases hscope
  | body sees counted =>
    cases hscope
    unfold Appends at *
    rw [Sibling.packDepend_apply (sees field dependent hfield) hc hschema]
    exact happends

/-- The count that a linked array writes is the one that is there. -/
theorem reversed_link {field : String} {item : Candidate} {v : Value}
    (hcounter : ∃ q c kind, place = some q ∧ (field, c) ∈ q.before ∧ Γ.registry.resolve c = .ok (.number kind) ∧
      kind.isFloat = false)
    (hitem : ∀ schema, Γ.registry.resolve item = .ok schema →
      Reverses Γ place (Elements.readOne Γ read schema) (Elements.writeOne Γ write schema))
    (htyped : Typed Γ.registry place u) (hrun : Sibling.unpackLink Γ read field item ⟨⟨data, p⟩, u⟩ = .ok (v, s)) :
    ∃ q fires, Reversed Γ place data p u s (Sibling.packLink Γ write field item v) q fires := by
  obtain ⟨place, c, kind, rfl, hmem, hc, hint⟩ := hcounter
  obtain ⟨w, s₁, hsibling, hcount⟩ := Walk.bind_eq_ok.mp hrun
  obtain ⟨scope, hscope, hfield, rfl⟩ := Walk.sibling_eq_ok.mp hsibling
  obtain ⟨n, s₂, hn, helements⟩ := Walk.bind_eq_ok.mp hcount
  obtain ⟨hn, rfl⟩ := Count.ofValue_eq_ok.mp hn
  obtain ⟨items, q, fires, rfl, rfl, hreversed⟩ := reversed_elements hitem htyped helements
  refine ⟨q, fires, hreversed.state, hreversed.forward, hreversed.inside, ?_⟩
  intro out w hw
  have happends := hreversed.writes out w hw
  cases hw with
  | body sees counted =>
    obtain ⟨n, offset, run, hn', hstores, hencode, hschema, hoffset, hbytes⟩ := counted field c kind hmem hc hint
    cases hscope
    rw [hfield] at hn'
    obtain rfl := Option.some.inj hn'
    obtain ⟨hle, hcount⟩ := hstores.of_count hn
    have hlength := Number.length_of_encode hencode
    have hsame : out.patch offset run.toArray = out := by
      refine Bytes.patch_self ?_ ?_
      · rw [List.size_toArray, hlength]
        exact kind.size_pos
      · rw [List.size_toArray, hlength]
        exact hbytes
    rw [← hcount] at hencode
    unfold Appends at *
    rw [Sibling.packLink_apply hschema hoffset hc hle hencode, hsame]
    exact happends

/-! ## Objects -/

/-- Behind a field that was read, the fields before the next one are typed again. -/
theorem typed_push {layout : Layout} (hwf : layout.WellFormed) {before rest : Keyed Candidate} {key : String} {c : Candidate}
    (split : layout.entries = before ++ (key, c) :: rest) {contents : List Value} (hlength : contents.length = before.length)
    {scope scope' : Scope} (hvalue : scope.value = layout.valueOf contents) {v : Value}
    (hvalue' : scope'.value = layout.valueOf (contents ++ [v])) (htyped : scope.Typed Γ.registry ⟨layout, before⟩)
    (hnew : ∀ kind, Γ.registry.resolve c = .ok (.number kind) → kind.isFloat = false → ∃ n, v = .int n ∧ kind.Stores n) :
    scope'.Typed Γ.registry ⟨layout, before ++ [(key, c)]⟩ := by
  intro field c' kind hmem hc hint
  rcases List.mem_append.mp hmem with hold | hlast
  · obtain ⟨n, hfield, hstores⟩ := htyped field c' kind hold hc hint
    refine ⟨n, ?_, hstores⟩
    rw [Scope.field?, hvalue] at hfield
    rw [Scope.field?, hvalue']
    exact Layout.get?_valueOf_append hfield [v]
  · cases List.mem_singleton.mp hlast
    obtain ⟨n, rfl, hstores⟩ := hnew kind hc hint
    refine ⟨n, ?_, hstores⟩
    rw [Scope.field?, hvalue']
    exact Layout.get?_valueOf hwf split hlength _ []

/-- Noting where the next field starts leaves the earlier notes as they are. -/
theorem Scope.Counted.mark {layout : Layout} (hwf : layout.WellFormed) {before rest : Keyed Candidate} {key : String}
    {c : Candidate} (split : layout.entries = before ++ (key, c) :: rest) {out : Bytes} {scope w : Scope}
    (h : scope.Counted Γ ⟨layout, before⟩ out w) (start : Nat) : scope.Counted Γ ⟨layout, before⟩ out (w.mark key start) := by
  intro field c' kind hmem hc hint
  obtain ⟨n, offset, run, hfield, hstores, hencode, hschema, hoffset, hbytes⟩ := h field c' kind hmem hc hint
  have hne : field ≠ key := by
    intro heq
    refine Layout.not_mem_keys_of_split hwf split ?_
    rw [← heq]
    exact List.mem_map_of_mem hmem
  refine ⟨n, offset, run, hfield, hstores, hencode, hschema, ?_, hbytes⟩
  rw [← hoffset]
  exact (Keyed.lookup_insert w.offsets key field start).trans (if_neg hne)

/-- Behind a field that was written, the counts before the next one are in the output. -/
theorem counted_push {layout : Layout} (hwf : layout.WellFormed) {before rest : Keyed Candidate} {key : String} {c : Candidate}
    (split : layout.entries = before ++ (key, c) :: rest) {contents : List Value} (hlength : contents.length = before.length)
    {scope scope' w : Scope} (hvalue : scope.value = layout.valueOf contents) {v : Value}
    (hvalue' : scope'.value = layout.valueOf (contents ++ [v])) {out bytes : Bytes} (hlayout : w.layout = layout)
    (hcounted : scope.Counted Γ ⟨layout, before⟩ out w) (fires : Bool)
    (hnew : ∀ kind, Γ.registry.resolve c = .ok (.number kind) → kind.isFloat = false →
      ∃ n run, v = .int n ∧ kind.Stores n ∧ kind.encode Γ.options.byteOrder (.int n) = .ok run ∧ run.toArray = bytes) :
    scope'.Counted Γ ⟨layout, before ++ [(key, c)]⟩ (out ++ bytes) ((w.mark key out.size).leave fires) := by
  intro field c' kind hmem hc hint
  rcases List.mem_append.mp hmem with hold | hlast
  · obtain ⟨n, offset, run, hfield, hstores, hencode, hschema, hoffset, hbytes⟩ :=
      (hcounted.mark hwf split out.size).append bytes field c' kind hold hc hint
    refine ⟨n, offset, run, ?_, hstores, hencode, hschema, hoffset, hbytes⟩
    rw [Scope.field?, hvalue] at hfield
    rw [Scope.field?, hvalue']
    exact Layout.get?_valueOf_append hfield [v]
  · cases List.mem_singleton.mp hlast
    obtain ⟨n, run, rfl, hstores, hencode, rfl⟩ := hnew kind hc hint
    refine ⟨n, out.size, run, ?_, hstores, hencode, ?_, ?_, ?_⟩
    · rw [Scope.field?, hvalue']
      exact Layout.get?_valueOf hwf split hlength _ []
    · rw [← Layout.get?_of_split hwf split, ← hlayout]
      rfl
    · exact (Keyed.lookup_insert w.offsets key key out.size).trans (if_pos rfl)
    · have hbytes := Bytes.extract_append_add out run.toArray 0 kind.size
      rw [Nat.add_zero, ← Number.length_of_encode hencode] at hbytes
      rw [← Number.length_of_encode hencode, hbytes]
      exact Array.extract_size

/-- Where an integer was read, its bytes are those between the two positions. -/
theorem Reversed.integer {write : Packing Unit} {m : Nat} {fires : Bool} {kind : Number} {v : Value}
    (h : Reversed Γ place data p u s write m fires) (hint : kind.isFloat = false)
    (hread : Unpacking.number Γ kind ⟨⟨data, p⟩, u⟩ = .ok (v, s)) :
    ∃ n run, v = .int n ∧ kind.Stores n ∧ kind.encode Γ.options.byteOrder (.int n) = .ok run ∧ run.toArray = data.extract p m := by
  obtain ⟨n, run, hv, hstores, hencode, hrun, -, hstate⟩ := number_reversed hint hread
  have hm : m = p + kind.size := congrArg (fun state => state.medium.position) (h.state.symm.trans hstate)
  rw [hm]
  exact ⟨n, run, hv, hstores, hencode, hrun⟩

/-- A field that was read is written in a body that holds the whole value, and the next ones behind it. -/
theorem Reversed.packFields {layout : Layout} (hwf : layout.WellFormed) {before rest : Keyed Candidate} {key : String}
    {c : Candidate} {schema : Schema} {v : Value} {m : Nat} {fires : Bool} {scope : Scope} {contents more : List Value}
    (h : Reversed Γ (some ⟨layout, before⟩) data p (some scope) s (write schema v) m fires)
    (split : layout.entries = before ++ (key, c) :: rest) (hlength : contents.length = before.length)
    (hvalue : scope.value = layout.valueOf contents) (hc : Γ.registry.resolve c = .ok schema) {w : Scope} {out : Bytes}
    (hexit : w.isExited = false) (hw : w.value = layout.valueOf (contents ++ v :: more))
    (hcounted : scope.Counted Γ ⟨layout, before⟩ out w) (around : Option Scope) :
    Body.packFields (Packing.candidate Γ write) (layout.valueOf (contents ++ v :: more)) ((key, c) :: rest) w ⟨out, around⟩ =
      Body.packFields (Packing.candidate Γ write) (layout.valueOf (contents ++ v :: more)) rest
        ((w.mark key out.size).leave fires) ⟨out ++ data.extract p m, around⟩ := by
  have hcontent : ((layout.valueOf (contents ++ v :: more)).get? key).getD .null = v := by
    rw [Layout.get?_valueOf hwf split hlength v more]
    rfl
  have hsees : scope.Sees (w.mark key out.size) := Scope.sees_of_value hvalue hw
  refine Body.packFields_cons hexit ?_ around
  rw [hcontent, Packing.candidate_eq hc]
  exact h.writes out _ (.body hsees (hcounted.mark hwf split out.size))

/-- The fields that were read are written again; behind an exit neither direction does anything. -/
theorem reversed_fields {layout : Layout} (hwf : layout.WellFormed)
    (hfield : ∀ before key c rest schema, layout.entries = before ++ (key, c) :: rest → Γ.registry.resolve c = .ok schema →
      Reverses Γ (some ⟨layout, before⟩) (read schema) (write schema))
    (hinteger : ∀ kind s r, read (.number kind) s = .ok r → Unpacking.number Γ kind s = .ok r)
    {before entries : Keyed Candidate} (split : layout.entries = before ++ entries) {contents : List Value}
    (hlength : contents.length = before.length) {scope scope' : Scope} (hvalue : scope.value = layout.valueOf contents)
    (htyped : scope.isExited = false → scope.Typed Γ.registry ⟨layout, before⟩) {around : Option Scope}
    (hrun : Body.unpackFields (Unpacking.candidate Γ read) entries scope ⟨⟨data, p⟩, around⟩ = .ok (scope', s)) :
    ∃ more q, scope'.value = layout.valueOf (contents ++ more) ∧ s = ⟨⟨data, q⟩, around⟩ ∧ p ≤ q ∧
      (p ≤ data.size → q ≤ data.size) ∧
      ∀ out w around', w.isExited = scope.isExited → w.layout = layout → w.value = layout.valueOf (contents ++ more) →
        (scope.isExited = false → scope.Counted Γ ⟨layout, before⟩ out w) →
        Body.packFields (Packing.candidate Γ write) (layout.valueOf (contents ++ more)) entries w ⟨out, around'⟩ =
          .ok ((), ⟨out ++ data.extract p q, around'⟩) := by
  induction entries generalizing before contents scope p with
  | nil =>
    cases hrun
    refine ⟨[], p, by rw [List.append_nil, hvalue], rfl, Nat.le_refl p, id, ?_⟩
    intro out w around' _ _ _ _
    rw [Array.extract_empty_of_stop_le_start (Nat.le_refl p), Array.append_empty]
    rfl
  | cons entry rest ih =>
    obtain ⟨key, c⟩ := entry
    cases hexit : scope.isExited with
    | true =>
      obtain ⟨scope'', hread, hvalue'⟩ := Body.unpackFields_exited hwf split hlength hvalue hexit ⟨⟨data, p⟩, around⟩
      rw [hread] at hrun
      cases hrun
      refine ⟨_, p, hvalue', rfl, Nat.le_refl p, id, ?_⟩
      intro out w around' hw _ _ _
      rw [Array.extract_empty_of_stop_le_start (Nat.le_refl p), Array.append_empty]
      exact Body.packFields_exited hw _
    | false =>
      obtain ⟨v, s₁, hread, hrest⟩ := (Body.unpackFields_cons_eq_ok hexit).mp hrun
      obtain ⟨schema, hschema, hread⟩ := Unpacking.candidate_eq_ok.mp hread
      obtain ⟨m, fires, hreversed⟩ := hfield before key c rest schema split hschema data p _ v s₁ (.body (htyped hexit)) hread
      have hnumber : ∀ kind, Γ.registry.resolve c = .ok (.number kind) → kind.isFloat = false →
          ∃ n run, v = .int n ∧ kind.Stores n ∧ kind.encode Γ.options.byteOrder (.int n) = .ok run ∧
            run.toArray = data.extract p m := by
        intro kind hkind hint
        cases hschema.symm.trans hkind
        exact hreversed.integer hint (hinteger kind _ _ hread)
      rw [hreversed.state] at hrest
      have hlength' := Keyed.length_next hlength v (key, c)
      have hleft : (scope.leave fires).value = layout.valueOf contents := hvalue
      have hvalue' := Layout.push_value hwf split hlength hleft v
      have htyped' := typed_push hwf split hlength hvalue hvalue' (htyped hexit) fun kind hkind hint => by
        obtain ⟨n, -, hv, hstores, -⟩ := hnumber kind hkind hint
        exact ⟨n, hv, hstores⟩
      obtain ⟨more, q, hfinal, hs, hmq, hin, hwrites⟩ := ih (Keyed.split_next split) hlength' hvalue' (fun _ => htyped') hrest
      rw [← List.append_cons] at hfinal hwrites
      have hinside : p ≤ data.size → q ≤ data.size := fun hp => hin (hreversed.inside hp)
      refine ⟨v :: more, q, hfinal, hs, Nat.le_trans hreversed.forward hmq, hinside, ?_⟩
      intro out w around' hw hlayout hwvalue hcounted
      have hbytes : data.extract p m ++ data.extract m q = data.extract p q := by
        rw [Array.extract_append_extract, Nat.min_eq_left hreversed.forward, Nat.max_eq_right hmq]
      rw [hreversed.packFields hwf split hlength hvalue hschema hw hwvalue (hcounted rfl) around', ← hbytes, ← Array.append_assoc]
      refine hwrites _ _ around' ?_ hlayout hwvalue ?_
      · rw [Scope.isExited_push]
        simp only [Scope.leave, Scope.mark, hw, hexit]
      · intro _
        exact counted_push hwf split hlength hvalue hvalue' hlayout (hcounted rfl) fires hnumber

theorem reversed_object {layout : Layout} (hwf : layout.WellFormed)
    (hfield : ∀ before key c rest schema, layout.entries = before ++ (key, c) :: rest → Γ.registry.resolve c = .ok schema →
      Reverses Γ (some ⟨layout, before⟩) (read schema) (write schema))
    (hinteger : ∀ kind s r, read (.number kind) s = .ok r → Unpacking.number Γ kind s = .ok r) {v : Value}
    (hrun : Body.unpackObject (Unpacking.candidate Γ read) layout ⟨⟨data, p⟩, u⟩ = .ok (v, s)) :
    ∃ q, Reversed Γ place data p u s (Body.packObject (Packing.candidate Γ write) layout v) q false := by
  obtain ⟨scope, s₁, hfields, hv⟩ := Walk.bind_eq_ok.mp hrun
  cases hv
  have hstart : (Scope.reading layout).value = layout.valueOf [] := layout.valueOf_nil.symm
  have htyped : (Scope.reading layout).Typed Γ.registry ⟨layout, []⟩ := by
    intro field c kind hmem
    cases hmem
  obtain ⟨contents, q, hvalue, hs, hle, hin, hwrites⟩ :=
    reversed_fields hwf hfield hinteger (List.nil_append _).symm rfl hstart (fun _ => htyped) hfields
  rw [List.nil_append] at hvalue hwrites
  refine ⟨q, by rw [hs, leaves_false], hle, hin, ?_⟩
  intro out w _
  have hcounted : (Scope.reading layout).Counted Γ ⟨layout, []⟩ out (.writing layout (layout.valueOf contents)) := by
    intro field c kind hmem
    cases hmem
  rw [hvalue, Body.packObject_valueOf]
  unfold Appends
  rw [leaves_false]
  exact hwrites out _ w rfl rfl rfl fun _ => hcounted

end

namespace Codec

variable {Γ : Context} {site : Site}

/-- Whatever a schema reads, it writes as the bytes that were read, when every schema inside does. -/
theorem reverses_unpack (depth : Nat)
    (hsite : Site.Throughout Γ.registry (.typed Γ.registry) (Site.Reversible Γ.registry) site) :
    Reverses Γ site.place (unpack Γ depth site.schema) (pack Γ depth site.schema) := by
  induction depth generalizing site with
  | zero => exact fun _ _ _ _ _ _ hrun => nomatch hrun
  | succ depth ih =>
    intro data p u v s htyped hrun
    obtain ⟨schema, place, isParsed⟩ := site
    have hone : ∀ schema, Site.Throughout Γ.registry (.typed Γ.registry) (Site.Reversible Γ.registry) ⟨schema, place, isParsed⟩ →
        Reverses Γ place (Elements.readOne Γ (unpack Γ depth) schema) (Elements.writeOne Γ (pack Γ depth) schema) := by
      intro schema hschema
      cases schema with
      | number kind => exact reverses_number hschema.here
      | _ => exact ih hschema
    have hinteger : ∀ kind s r, unpack Γ depth (.number kind) s = .ok r → Unpacking.number Γ kind s = .ok r := by
      intro kind s r hread
      cases depth with
      | zero => cases hread
      | succ depth => exact hread
    have hhere := hsite.here
    cases schema with
    | number kind => exact reverses_number hhere data p u v s htyped hrun
    | array item count => exact reversed_array hhere (fun schema hc => hone schema (hsite.of_runs (.item hc))) htyped hrun
    | string size =>
      obtain ⟨q, hreversed⟩ := reversed_text hhere hrun
      exact ⟨q, false, hreversed⟩
    | cstring size =>
      obtain rfl : size = .auto := hhere
      obtain ⟨q, hreversed⟩ := reversed_terminatedText hrun
      exact ⟨q, false, hreversed⟩
    | object layout =>
      have hfield : ∀ before key c rest schema, layout.entries = before ++ (key, c) :: rest → Γ.registry.resolve c = .ok schema →
          Reverses Γ (some ⟨layout, before⟩) (unpack Γ depth schema) (pack Γ depth schema) :=
        fun before key c rest schema hsplit hc => ih (hsite.of_runs (.field hsplit hc))
      obtain ⟨q, hreversed⟩ := reversed_object hhere hfield hinteger hrun
      exact ⟨q, false, hreversed⟩
    | enums names base =>
      obtain ⟨q, hreversed⟩ := reversed_enumeration hhere.1 hhere.2 hrun
      exact ⟨q, false, hreversed⟩
    | depend field selector =>
      exact reversed_depend (fun _ _ _ hseen hselect hc => ih (hsite.of_runs (.selected hseen hselect hc))) htyped hrun
    | link field item => exact reversed_link hhere (fun schema hc => hone schema (hsite.of_runs (.linked hc))) htyped hrun
    | computed operator w =>
      cases hrun
      exact ⟨p, false, .nothing place data p u⟩
    | exit =>
      obtain ⟨⟨⟩, s₁, hexit, hv⟩ := Walk.bind_eq_ok.mp hrun
      cases hv
      cases htyped with
      | outside => cases hexit
      | body typed =>
        cases hexit
        refine ⟨p, true, by rw [leaves, Option.map_some, Scope.leave_true], Nat.le_refl p, id, ?_⟩
        intro out w hw
        rw [Array.extract_empty_of_stop_le_start (Nat.le_refl p)]
        cases hw with
        | body sees counted => exact .exitScope "exit" out _
    | union layout size => exact absurd hhere id
    | parse encode decode inner size => exact absurd hhere id
    | custom extension => exact absurd hhere id

/-- In a canonical format whatever is read is written as the bytes that were read, wherever they stood in the input: behind any
output, and by the registry as the whole of it. -/
theorem pack_of_unpack {c : Candidate} {schema : Schema} (hc : Γ.registry.resolve c = .ok schema)
    (hsite : Site.Throughout Γ.registry (.typed Γ.registry) (Site.Reversible Γ.registry) (.top schema)) {data : Bytes} {p : Nat}
    {v : Value} {s : WalkState Cursor} (hrun : unpackCandidate Γ c ⟨⟨data, p⟩, none⟩ = .ok (v, s)) :
    ∃ q, s = ⟨⟨data, q⟩, none⟩ ∧ p ≤ q ∧ (p ≤ data.size → q ≤ data.size) ∧
      (∀ out, packCandidate Γ c v ⟨out, none⟩ = .ok ((), ⟨out ++ data.extract p q, none⟩)) ∧
      Γ.registry.packWith c v Γ.options = .ok (data.extract p q) := by
  obtain ⟨schema', hc', hread⟩ := Unpacking.candidate_eq_ok.mp hrun
  cases hc.symm.trans hc'
  obtain ⟨q, fires, hreversed⟩ := reverses_unpack _ hsite data p none v s .outside hread
  have hpack : ∀ out, packCandidate Γ c v ⟨out, none⟩ = .ok ((), ⟨out ++ data.extract p q, none⟩) := by
    intro out
    rw [packCandidate, Packing.candidate_eq hc]
    exact hreversed.writes out none .outside
  refine ⟨q, hreversed.state, hreversed.forward, hreversed.inside, hpack, ?_⟩
  have hwhole := hpack #[]
  rw [Array.empty_append] at hwhole
  rw [Registry.packWith, hwhole]
  rfl

/-- A packet is written as the bytes from which it was read, its count included. -/
theorem pack_of_unpack_packet :
    Packet.context.registry.packWith (.schema Packet.schema) Packet.value Packet.context.options = .ok Packet.bytes := by
  have hsite : Site.Throughout Packet.context.registry (.typed Packet.context.registry)
      (Site.Reversible Packet.context.registry) (.top Packet.schema) := by
    refine Packet.throughout ?_ (fun _ => rfl) (fun _ => rfl) ?_ fun _ => rfl
    · exact List.nodup_iff_pairwise_ne.mpr (by decide)
    · exact ⟨_, .number .uint8, .uint8, rfl, List.mem_singleton.mpr rfl, rfl, rfl⟩
  have hrun : unpackCandidate Packet.context (.schema Packet.schema) ⟨⟨Packet.bytes, 0⟩, none⟩ =
      .ok (Packet.value, ⟨⟨Packet.bytes, 7⟩, none⟩) := by rfl
  obtain ⟨q, hs, -, -, -, hpack⟩ := pack_of_unpack rfl hsite hrun
  cases hs
  exact hpack

end Codec

end WireLayout
