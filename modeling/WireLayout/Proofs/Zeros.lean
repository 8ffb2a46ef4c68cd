import WireLayout.Proofs.Faults
import WireLayout.Proofs.Filling
import WireLayout.Proofs.Tandem
import WireLayout.Proofs.UnionExit

/-!
# Null is the zero value

Null has no elements, no text and no fields, and is zero as a number; so whatever a schema makes of it is zero bytes
(`pack_zeroing`). Null is handed on to what runs inside a schema in two places only, the elements that a fixed count asks for and the
fields of an object (`Site.HandsNull`); a union has no field of null to write, and elements that are counted are none. What can go wrong
is not in the value then: a name that stands for nothing, a count or a base that is no number, a schema that needs a body and has none,
a count that stands in no earlier field. And a run is given up only where null is handed on without an end (`Site.EndsWithin`).
-/

namespace WireLayout

/-! ## Zero bytes -/

namespace Bytes

/-- Nothing but zero bytes. -/
def IsZero (bytes : Bytes) : Prop := ∀ b ∈ bytes, b = 0

variable {bytes bytes' target : Bytes}

theorem isZero_empty : IsZero #[] := by
  intro b hb
  simp at hb

theorem isZero_zeros (n : Nat) : (zeros n).IsZero := by
  intro b hb
  exact (Array.mem_replicate.mp hb).2

theorem IsZero.append (h : bytes.IsZero) (h' : bytes'.IsZero) : (bytes ++ bytes').IsZero := by
  intro b hb
  rcases Array.mem_append.mp hb with hb | hb
  · exact h b hb
  · exact h' b hb

/-- Zeros that are cut or filled up stay zeros. -/
theorem IsZero.fit (h : bytes.IsZero) (size : Nat) : (bytes.fit size).IsZero := by
  refine IsZero.append ?_ (isZero_zeros _)
  intro b hb
  obtain ⟨i, hi, rfl⟩ := Array.mem_iff_getElem.mp hb
  rw [Array.getElem_extract]
  exact h _ (Array.getElem_mem _)

theorem IsZero.overwrite (h : target.IsZero) (offset : Nat) {content : List UInt8} (hcontent : ∀ b ∈ content, b = 0) :
    (target.overwrite offset content).IsZero := by
  induction content generalizing target offset with
  | nil => exact h
  | cons b rest ih =>
    have hset : IsZero (target.setIfInBounds offset b) := by
      intro b' hb'
      rcases Array.mem_or_eq_of_mem_setIfInBounds hb' with hb' | rfl
      · exact h b' hb'
      · exact hcontent _ List.mem_cons_self
    exact ih hset (offset + 1) fun b hb => hcontent b (List.mem_cons_of_mem _ hb)

/-- Zeros written over zeros are zeros. -/
theorem IsZero.patch (h : target.IsZero) (offset : Nat) (hcontent : bytes.IsZero) : (target.patch offset bytes).IsZero := by
  refine (h.append (isZero_zeros _)).overwrite offset ?_
  intro b hb
  exact hcontent b (Array.mem_toList_iff.mp hb)

end Bytes

/-- No elements are counted as zero, which every kind of number can store. -/
theorem Number.packCount_zero (kind : Number) (order : ByteOrder) (out : Bytes) :
    kind.packCount order 0 out = .ok (out ++ Bytes.zeros kind.size) := by
  have encoded : kind.encode order (.ofCount 0) = .ok (List.replicate kind.size 0) := by
    cases kind <;> cases order <;> rfl
  rw [packCount, if_neg (Nat.not_lt_zero _), pack_eq, encoded]
  rfl

/-! ## What null is written as -/

section

variable {Γ : Context}

/-- The empty text has no bytes in any encoding. -/
theorem Encoding.encode_empty (encoding : Encoding) : encoding.encode "" = .ok #[] := by
  cases encoding <;> simp [encode, encode?, admits]

/-- Null is the empty text. -/
theorem Text.pack_null (size : Count) : pack Γ size .null = Region.pack Γ size #[] := by
  show (Walk.ofExcept (Γ.options.encoding.encode "") >>= Region.pack Γ size) = _
  rw [Encoding.encode_empty]
  exact pure_bind _ _

theorem Text.packTerminated_null (size : Count) : packTerminated Γ size .null = Region.pack Γ size #[0] := by
  show (Walk.ofExcept (Γ.options.encoding.encode "") >>= fun bytes => Region.pack Γ size (bytes.push 0)) = _
  rw [Encoding.encode_empty]
  exact pure_bind _ _

/-- Null has no elements to count. -/
theorem Elements.packArray_null (run : Schema → Value → Packing Unit) (item : Candidate) (count : Count) :
    packArray Γ run item count .null = count.pack Γ 0 >>= fun _ => Elements.pack Γ run item [] (count.lengthFor .null) :=
  packArray_eq rfl

/-- An object takes null as an input without fields. -/
theorem Body.packObject_null (write : Candidate → Value → Packing Unit) (layout : Layout) :
    packObject write layout .null = packFields write .null layout.entries (.writing layout .null) := by
  cases layout <;> exact pure_bind _ _

/-- A union has no field of null to write, so its region stays as it is laid out. -/
theorem Body.packUnion_null (write : Candidate → Value → Packing Unit) (layout : Layout) (size : Nat) :
    packUnion write layout size .null = Packing.emit (Bytes.zeros size) := by
  have shape : packUnion write layout size .null =
      overlayFields write .null layout.entries (.writing layout .null) (Bytes.zeros size) >>= Packing.emit := by
    cases layout <;> exact pure_bind _ _
  rw [shape, overlayFields_absent fun _ _ => rfl]
  exact pure_bind _ _

end

/-! ## What can go wrong with null -/

/-- Why null may not be packed: a name stands for nothing, a count or the base of an enumeration is no number, an exit or a linked array
runs outside every body, or the count of a linked array stands in no earlier field. -/
inductive Fault.OfNull : Fault → Prop where
  | unregistered (identifier : String) : OfNull (.unregisteredSchema identifier)
  | count (schema : Schema) : OfNull (Count.notNumeric schema)
  | base (schema : Schema) : OfNull (Enumeration.notNumeric schema)
  | exit : OfNull (.missingScope "exit")
  | link : OfNull (.missingScope "link")
  | undefined (field : String) : OfNull (.undefinedDependency field)

/-- The resolution of a candidate ends within the limit: it comes to a schema, or fails. -/
def Registry.Answers (r : Registry) (c : Candidate) : Prop := r.resolve c ≠ .error .exhausted

/-- An outcome that is right, a fault that is none of the value's, or a run that was given up, which only happens where it does not end. -/
inductive Settles {ρ : Type} (ends : Prop) (R : ρ → Prop) : Except Stop ρ → Prop where
  | ok {a : ρ} (h : R a) : Settles ends R (.ok a)
  | fault {fault : Fault} (h : fault.OfNull) : Settles ends R (.error (.fault fault))
  | exhausted (endless : ¬ends) : Settles ends R (.error .exhausted)

namespace Settles

variable {ρ σ : Type} {ends ends' : Prop} {R : ρ → Prop} {S : σ → Prop} {outcome : Except Stop ρ}

theorem map {f : ρ → σ} (h : Settles ends R outcome) (himp : ∀ a, R a → S (f a)) : Settles ends S (outcome.map f) := by
  cases h with
  | ok h => exact .ok (himp _ h)
  | fault h => exact .fault h
  | exhausted endless => exact .exhausted endless

theorem mono (h : Settles ends R outcome) (himp : ends' → ends) : Settles ends' R outcome := by
  cases h with
  | ok h => exact .ok h
  | fault h => exact .fault h
  | exhausted endless => exact .exhausted (mt himp endless)

end Settles

/-! ## Steps that write zeros -/

/-- Behind zeros, in a scope of the body, a step writes zeros and gives such a value, and the scope is still of the body. It is given up
only where it does not end. -/
def Zeroing {α : Type} (ends : Prop) (body : Option Layout) (V : α → Prop) (step : Packing α) : Prop :=
  ∀ out scope, out.IsZero → scope.map (·.layout) = body →
    Settles ends (fun result => V result.1 ∧ result.2.medium.IsZero ∧ result.2.scope.map (·.layout) = body) (step ⟨out, scope⟩)

namespace Zeroing

open Packing

variable {α β : Type} {ends ends' : Prop} {body : Option Layout} {V : α → Prop} {W : β → Prop} {Γ : Context}
  {run : Schema → Value → Packing Unit}

theorem mono {step : Packing α} (h : Zeroing ends body V step) (himp : ends' → ends) : Zeroing ends' body V step :=
  fun out scope hout hbody => (h out scope hout hbody).mono himp

theorem bind {step : Packing α} {next : α → Packing β} (h : Zeroing ends body V step)
    (hnext : ∀ a, V a → Zeroing ends body W (next a)) : Zeroing ends body W (step >>= next) := by
  intro out scope hout hbody
  have first := h out scope hout hbody
  rw [Walk.bind_apply]
  generalize step ⟨out, scope⟩ = outcome at first
  cases first with
  | @ok result after =>
    obtain ⟨hvalue, hzero, hscope⟩ := after
    exact hnext result.1 hvalue result.2.medium result.2.scope hzero hscope
  | fault h => exact .fault h
  | exhausted endless => exact .exhausted endless

/-- A sequence of which the second step may go on from any value. -/
theorem seq {step : Packing α} {next : α → Packing β} (h : Zeroing ends body (fun _ => True) step)
    (hnext : ∀ a, Zeroing ends body W (next a)) : Zeroing ends body W (step >>= next) := h.bind fun a _ => hnext a

theorem pure {a : α} (h : V a) : Zeroing ends body V (Pure.pure a) := fun _ _ hout hbody => .ok ⟨h, hout, hbody⟩

theorem fail {fault : Fault} (h : fault.OfNull) : Zeroing ends body V (Walk.fail fault) := fun _ _ _ _ => .fault h

theorem giveUp (endless : ¬ends) : Zeroing ends body V Walk.giveUp := fun _ _ _ _ => .exhausted endless

theorem exitScope : Zeroing ends body (fun _ => True) (Walk.exitScope "exit") := by
  intro out scope hout hbody
  cases scope with
  | none => exact .fault .exit
  | some scope => exact .ok ⟨trivial, hout, hbody⟩

theorem onOutput {f : Bytes → Except Fault Bytes} (h : ∀ out : Bytes, out.IsZero → ∃ out', f out = .ok out' ∧ out'.IsZero) :
    Zeroing ends body (fun _ => True) (onOutput f) := by
  intro out scope hout hbody
  obtain ⟨out', hf, hout'⟩ := h out hout
  simp only [Packing.onOutput, hf]
  exact .ok ⟨trivial, hout', hbody⟩

theorem emit {bytes : Bytes} (h : bytes.IsZero) : Zeroing ends body (fun _ => True) (emit bytes) :=
  fun _ _ hout hbody => .ok ⟨trivial, hout.append h, hbody⟩

theorem collect {step : Packing Unit} (h : Zeroing ends body (fun _ => True) step) :
    Zeroing ends body Bytes.IsZero (collect step) := by
  intro out scope hout hbody
  have apart := h #[] scope Bytes.isZero_empty hbody
  simp only [Packing.collect, Walk.bind_apply, Walk.aside]
  generalize step ⟨#[], scope⟩ = outcome at apart
  cases apart with
  | ok after => exact .ok ⟨after.2.1, hout, after.2.2⟩
  | fault h => exact .fault h
  | exhausted endless => exact .exhausted endless

/-- A step in a scope of a body inside; the scope around is put back. -/
theorem within {scope : Scope} {layout : Layout} (hscope : scope.layout = layout) {step : Packing α}
    (h : Zeroing ends (some layout) V step) :
    Zeroing ends body (fun result => V result.1 ∧ result.2.layout = layout) (Walk.within scope step) := by
  intro out around hout hbody
  have inside := h out (some scope) hout (congrArg some hscope)
  simp only [Walk.within]
  generalize step ⟨out, some scope⟩ = outcome at inside
  cases inside with
  | @ok result after =>
    obtain ⟨a, medium, inner⟩ := result
    obtain ⟨hvalue, hzero, hlayout⟩ := after
    obtain ⟨inner, rfl, hinner⟩ := Option.map_eq_some_iff.mp hlayout
    exact .ok ⟨⟨hvalue, hinner⟩, hzero, hbody⟩
  | fault h => exact .fault h
  | exhausted endless => exact .exhausted endless

/-! ## What schemas are made of -/

/-- What does not resolve is a name that stands for nothing. -/
theorem resolve {c : Candidate} {next : Schema → Packing β} (ending : ends → Γ.registry.Answers c)
    (hnext : ∀ schema, Γ.registry.resolve c = .ok schema → Zeroing ends body W (next schema)) :
    Zeroing ends body W (Walk.resolve Γ c >>= next) := by
  cases hc : Γ.registry.resolve c with
  | ok schema =>
    rw [Walk.resolve_bind_ok hc]
    exact hnext schema hc
  | error stop =>
    rw [Walk.resolve_bind_error hc]
    cases stop with
    | fault fault =>
      rw [Registry.resolve_eq_fault hc]
      exact fail (.unregistered _)
    | exhausted => exact giveUp fun h => ending h hc

theorem resolveNumber {c : Candidate} (ending : ends → Γ.registry.Answers c) {fault : Schema → Fault}
    (h : ∀ schema, (fault schema).OfNull) : Zeroing ends body (fun _ => True) (Walk.resolveNumber Γ c fault) := by
  refine resolve ending ?_
  intro schema _
  split
  · exact pure trivial
  · exact fail (h _)

theorem candidate {c : Candidate} {v : Value} (ending : ends → Γ.registry.Answers c)
    (hrun : ∀ schema, Γ.registry.resolve c = .ok schema → Zeroing ends body (fun _ => True) (run schema v)) :
    Zeroing ends body (fun _ => True) (candidate Γ run c v) := resolve ending hrun

theorem number (kind : Number) : Zeroing ends body (fun _ => True) (number Γ kind .null) :=
  onOutput fun out hout => ⟨_, Number.pack_null kind _ out, hout.append (Bytes.isZero_zeros _)⟩

theorem packCount (kind : Number) :
    Zeroing ends body (fun _ => True) (Packing.onOutput fun out => kind.packCount Γ.options.byteOrder 0 out) :=
  onOutput fun out hout => ⟨_, Number.packCount_zero kind _ out, hout.append (Bytes.isZero_zeros _)⟩

theorem count {count : Count} (ending : ∀ number, count = .prefixed number → ends → Γ.registry.Answers number) :
    Zeroing ends body (fun _ => True) (count.pack Γ 0) := by
  cases count with
  | prefixed number => exact (resolveNumber (ending number rfl) .count).seq fun kind => packCount kind
  | fixed _ | auto => exact pure trivial

/-- An empty region, or one with a terminator alone, is zeros; only a count in front would count the terminator. -/
theorem region {size : Count} {bytes : Bytes} (hbytes : bytes.IsZero) (hsize : bytes.size = 0 ∨ ∀ number, size ≠ .prefixed number)
    (ending : ∀ number, size = .prefixed number → ends → Γ.registry.Answers number) :
    Zeroing ends body (fun _ => True) (Region.pack Γ size bytes) := by
  cases size with
  | fixed n => exact emit (hbytes.fit n)
  | prefixed number =>
    have hempty : bytes.size = 0 := hsize.resolve_right fun h => h number rfl
    refine Zeroing.seq ?_ fun _ => emit hbytes
    rw [hempty]
    exact count ending
  | auto => exact (pure trivial).seq fun _ => emit hbytes

theorem text {size : Count} (ending : ∀ number, size = .prefixed number → ends → Γ.registry.Answers number) :
    Zeroing ends body (fun _ => True) (Text.pack Γ size .null) := by
  rw [Text.pack_null]
  exact region Bytes.isZero_empty (Or.inl rfl) ending

theorem terminatedText {size : Count} (hsize : ∀ number, size ≠ .prefixed number) :
    Zeroing ends body (fun _ => True) (Text.packTerminated Γ size .null) := by
  rw [Text.packTerminated_null]
  exact region (Bytes.isZero_zeros 1) (Or.inr hsize) fun number heq => absurd heq (hsize number)

/-- All elements of null are null, if there are any. -/
theorem packEach {step : Value → Packing Unit} {count : Nat} (h : 0 < count → Zeroing ends body (fun _ => True) (step .null)) :
    Zeroing ends body (fun _ => True) (Elements.packEach step count []) := by
  induction count with
  | zero => exact pure trivial
  | succ count ih =>
    have one := h (Nat.succ_pos count)
    rw [Elements.packEach_succ]
    exact one.seq fun _ => ih fun _ => one

theorem elements {item : Candidate} {count : Nat} (ending : ends → Γ.registry.Answers item)
    (hrun : 0 < count → ∀ schema, Γ.registry.resolve item = .ok schema → Zeroing ends body (fun _ => True) (run schema .null)) :
    Zeroing ends body (fun _ => True) (Elements.pack Γ run item [] count) := by
  refine resolve ending ?_
  intro schema hitem
  split
  · rw [Elements.packNumbers_eq_packEach]
    exact packEach fun _ => number _
  · exact packEach fun positive => hrun positive _ hitem

/-- As many elements are written as the count asks for by itself. -/
theorem array {item : Candidate} {size : Count} (ending : ends → Γ.registry.Answers item)
    (counting : ∀ number, size = .prefixed number → ends → Γ.registry.Answers number)
    (hrun : ∀ n, size = .fixed (n + 1) → ∀ schema, Γ.registry.resolve item = .ok schema →
      Zeroing ends body (fun _ => True) (run schema .null)) :
    Zeroing ends body (fun _ => True) (Elements.packArray Γ run item size .null) := by
  rw [Elements.packArray_null]
  refine (count counting).seq fun _ => elements ending ?_
  intro positive
  cases size with
  | fixed n =>
    cases n with
    | zero => cases positive
    | succ n => exact hrun n rfl
  | prefixed _ | auto => cases positive

/-- The count of no elements is written back over zeros, by a number. -/
theorem link {field : String} {item : Candidate} (ending : ends → Γ.registry.Answers item)
    (counting : ∀ layout counter, body = some layout → layout.get? field = some counter → ends →
      Γ.registry.Answers counter)
    (hcount : ∀ layout counter schema, body = some layout → layout.get? field = some counter →
      Γ.registry.resolve counter = .ok schema → ∃ kind, schema = .number kind) :
    Zeroing ends body (fun _ => True) (Sibling.packLink Γ run field item .null) := by
  intro out scope hout hbody
  have nothing : Elements.ofValue .null = Pure.pure [] := rfl
  rw [Sibling.packLink, nothing, pure_bind, Walk.bind_apply]
  cases scope with
  | none => exact .fault .link
  | some scope =>
    simp only [Walk.requireScope]
    cases hcounter : scope.fieldSchema? field with
    | none => exact .fault (.undefined field)
    | some counter =>
      cases scope.offset? field with
      | none => exact .fault (.undefined field)
      | some offset =>
        have hbytes : Zeroing ends body Bytes.IsZero (Sibling.countBytes Γ run counter 0) := by
          refine resolve (counting scope.layout counter hbody.symm hcounter) ?_
          intro schema hschema
          obtain ⟨kind, rfl⟩ := hcount scope.layout counter schema hbody.symm hcounter hschema
          exact collect (packCount kind)
        have hpatch : ∀ bytes : Bytes, bytes.IsZero →
            Zeroing ends body (fun _ => True) (Packing.onOutput fun out => .ok (out.patch offset bytes)) :=
          fun bytes hzero => onOutput fun out hout => ⟨_, rfl, hout.patch offset hzero⟩
        have helements : Zeroing ends body (fun _ => True) (Elements.pack Γ run item [] 0) :=
          elements ending fun positive => absurd positive (Nat.lt_irrefl 0)
        exact (hbytes.bind fun bytes hzero => (hpatch bytes hzero).seq fun _ => helements) out (some scope) hout hbody

/-- An object writes null in every field. -/
theorem packFields {write : Candidate → Value → Packing Unit} {layout : Layout} {fields : Keyed Candidate}
    (hwrite : ∀ key c, (key, c) ∈ fields → Zeroing ends (some layout) (fun _ => True) (write c .null)) {scope : Scope}
    (hscope : scope.layout = layout) : Zeroing ends body (fun _ => True) (Body.packFields write .null fields scope) := by
  induction fields generalizing scope with
  | nil => exact pure trivial
  | cons field rest ih =>
    obtain ⟨key, c⟩ := field
    rw [Body.packFields]
    split
    · exact pure trivial
    · have position : Zeroing ends body (fun _ => True) Packing.position := fun _ _ hout hbody => .ok ⟨trivial, hout, hbody⟩
      have hmark : ∀ start, (scope.mark key start).layout = layout := fun _ => hscope
      refine position.seq fun start => (within (hmark start) (hwrite key c List.mem_cons_self)).bind fun result hresult => ?_
      exact ih (fun key c hmem => hwrite key c (List.mem_cons_of_mem _ hmem)) hresult.2

theorem object {write : Candidate → Value → Packing Unit} {layout : Layout}
    (hwrite : ∀ key c, (key, c) ∈ layout.entries → Zeroing ends (some layout) (fun _ => True) (write c .null)) :
    Zeroing ends body (fun _ => True) (Body.packObject write layout .null) := by
  rw [Body.packObject_null]
  exact packFields hwrite rfl

theorem union (write : Candidate → Value → Packing Unit) (layout : Layout) (size : Nat) :
    Zeroing ends body (fun _ => True) (Body.packUnion write layout size .null) := by
  rw [Body.packUnion_null]
  exact emit (Bytes.isZero_zeros size)

end Zeroing

/-! ## Every schema -/

namespace Site

/-- A schema that takes null as its zero value: no dependent field, no transform and no user-defined kind, no terminator that is
counted, and no linked array whose count is written by anything but a number. -/
def TakesNull (r : Registry) (site : Site) : Prop :=
  match site.schema with
  | .depend _ _ | .parse _ _ _ _ | .custom _ => False
  | .cstring size => ∀ number, size ≠ .prefixed number
  | .link field _ => ∀ place counter schema, site.place = some place → place.layout.get? field = some counter →
      r.resolve counter = .ok schema → ∃ kind, schema = .number kind
  | _ => True

/-- What null is handed on to: the elements that a fixed count asks for, and the fields of an object. -/
inductive HandsNull (r : Registry) : Site → Site → Prop where
  | item {item : Candidate} {n : Nat} {schema : Schema} {place : Option Place} {isParsed : Bool} (resolved : r.resolve item = .ok schema) :
      HandsNull r ⟨.array item (.fixed (n + 1)), place, isParsed⟩ ⟨schema, place, isParsed⟩
  | field {layout : Layout} {before after : Keyed Candidate} {key : String} {c : Candidate} {schema : Schema} {place : Option Place}
      {isParsed : Bool} (split : layout.entries = before ++ (key, c) :: after) (resolved : r.resolve c = .ok schema) :
      HandsNull r ⟨.object layout, place, isParsed⟩ ⟨schema, some ⟨layout, before⟩, false⟩

/-- What null is handed on to runs inside. -/
theorem HandsNull.runs {r : Registry} {site inner : Site} (h : HandsNull r site inner) : Runs r .any site inner := by
  cases h with
  | item resolved => exact .item resolved
  | field split resolved => exact .field split resolved

/-- The candidates that a schema resolves when it is given null. -/
inductive AsksFor : Site → Candidate → Prop where
  | item {item : Candidate} {count : Count} {place : Option Place} {isParsed : Bool} : AsksFor ⟨.array item count, place, isParsed⟩ item
  | length {item number : Candidate} {place : Option Place} {isParsed : Bool} :
      AsksFor ⟨.array item (.prefixed number), place, isParsed⟩ number
  | size {number : Candidate} {place : Option Place} {isParsed : Bool} : AsksFor ⟨.string (.prefixed number), place, isParsed⟩ number
  | field {layout : Layout} {key : String} {c : Candidate} {place : Option Place} {isParsed : Bool} (mem : (key, c) ∈ layout.entries) :
      AsksFor ⟨.object layout, place, isParsed⟩ c
  | base {names : List (String × Int64)} {base : Candidate} {place : Option Place} {isParsed : Bool} :
      AsksFor ⟨.enums names base, place, isParsed⟩ base
  | linked {field : String} {item : Candidate} {place : Option Place} {isParsed : Bool} : AsksFor ⟨.link field item, place, isParsed⟩ item
  | counter {field : String} {item c : Candidate} {place : Place} {isParsed : Bool} (found : place.layout.get? field = some c) :
      AsksFor ⟨.link field item, some place, isParsed⟩ c

/-- Null is handed on through at most `depth` schemas inside one another, this one included, and every candidate that they ask for is
resolved or fails. -/
def EndsWithin (r : Registry) : (depth : Nat) → Site → Prop
  | 0, _ => False
  | depth + 1, site =>
    (∀ c, site.AsksFor c → r.Answers c) ∧ ∀ inner, HandsNull r site inner → EndsWithin r depth inner

/-- What ends within a depth ends within a larger one. -/
theorem EndsWithin.mono {r : Registry} {depth depth' : Nat} {site : Site} (h : EndsWithin r depth site) (hle : depth ≤ depth') :
    EndsWithin r depth' site := by
  induction depth generalizing depth' site with
  | zero => exact h.elim
  | succ depth ih =>
    cases depth' with
    | zero => cases hle
    | succ depth' => exact ⟨h.1, fun inner hands => ih (h.2 inner hands) (Nat.le_of_succ_le_succ hle)⟩

end Site

/-- Such a schema writes zeros for null, in every body. -/
theorem Codec.pack_zeroing {Γ : Context} (depth : Nat) {site : Site}
    (takes : Site.Throughout Γ.registry .any (Site.TakesNull Γ.registry) site) :
    Zeroing (site.EndsWithin Γ.registry depth) (site.place.map (·.layout)) (fun _ => True) (pack Γ depth site.schema .null) := by
  induction depth generalizing site with
  | zero => exact Zeroing.giveUp id
  | succ depth ih =>
    obtain ⟨schema, place, isParsed⟩ := site
    have here := takes.here
    -- A schema inside has ended when all that null is handed on to from here has.
    have inner : ∀ {site' : Site}, Site.HandsNull Γ.registry ⟨schema, place, isParsed⟩ site' →
        Zeroing (Site.EndsWithin Γ.registry (depth + 1) ⟨schema, place, isParsed⟩) (site'.place.map (·.layout)) (fun _ => True)
          (pack Γ depth site'.schema .null) :=
      fun hands => (ih (takes.of_runs hands.runs)).mono fun ending => ending.2 _ hands
    cases schema with
    | number kind => exact Zeroing.number kind
    | array item count =>
      refine Zeroing.array (fun ending => ending.1 _ .item) ?_ ?_
      · rintro number rfl ending
        exact ending.1 _ .length
      · rintro n rfl schema hitem
        exact inner (.item hitem)
    | string size =>
      refine Zeroing.text ?_
      rintro number rfl ending
      exact ending.1 _ .size
    | cstring size => exact Zeroing.terminatedText here
    | object layout =>
      refine Zeroing.object fun key c hmem => ?_
      refine Zeroing.candidate (fun ending => ending.1 _ (.field hmem)) fun schema hschema => ?_
      obtain ⟨before, after, split⟩ := List.append_of_mem hmem
      exact inner (.field split hschema)
    | union layout size => exact Zeroing.union _ layout size
    | enums names base =>
      exact (Zeroing.resolveNumber (fun ending => ending.1 _ .base) .base).seq fun kind => Zeroing.number kind
    | link field item =>
      refine Zeroing.link (fun ending => ending.1 _ .linked) ?_ ?_
      · intro layout counter hlayout hcounter ending
        obtain ⟨place, rfl, rfl⟩ := Option.map_eq_some_iff.mp hlayout
        exact ending.1 _ (.counter hcounter)
      · intro layout counter schema hlayout hcounter hschema
        obtain ⟨place, hplace, rfl⟩ := Option.map_eq_some_iff.mp hlayout
        exact here place counter schema hplace hcounter hschema
    | computed operator w => exact Zeroing.pure trivial
    | exit => exact Zeroing.exitScope
    | depend _ _ | parse _ _ _ _ | custom _ => exact here.elim

/-- By itself as well. -/
theorem Codec.packed_null {Γ : Context} (depth : Nat) {schema : Schema}
    (takes : Site.Throughout Γ.registry .any (Site.TakesNull Γ.registry) (.top schema)) :
    Settles ((Site.top schema).EndsWithin Γ.registry depth) Bytes.IsZero (packed Γ depth schema .null) := by
  have zeroing := pack_zeroing depth takes
  exact (zeroing #[] none Bytes.isZero_empty rfl).map fun result h => h.2.1

end WireLayout
