import WireLayout.Proofs.Appending
import WireLayout.Proofs.Fitting
import WireLayout.Proofs.Padding

/-!
# Recovering what was written

Writing a value that fits succeeds, and reading from the bytes that were written gives the same value and moves just past them.
`RoundTrips` says this of a step that reads and the step that writes, and runs are put together by `RoundTrips.seq`. Writing sees the
whole value of the body around where reading sees only the fields before; both see at least what the judgement that the value fits
relies on (`Shows`). Here are the schemas that nothing runs inside: numbers, texts and enumerations.
-/

namespace WireLayout

open Packing

/-- These bytes lie in the data from a position on. -/
def Bytes.LiesAt (bytes data : Bytes) (p : Nat) : Prop := data.extract p (p + bytes.size) = bytes

namespace Bytes.LiesAt

variable {bytes bytes' data : Bytes} {p : Nat}

theorem le (h : bytes.LiesAt data p) : bytes.size ≤ data.size - p := by
  have hsize := congrArg Array.size h
  rw [Array.size_extract] at hsize
  omega

/-- What lies somewhere lies there in two parts. -/
theorem left (h : (bytes ++ bytes').LiesAt data p) : bytes.LiesAt data p := by
  have hfirst := congrArg (fun all : Bytes => all.extract 0 bytes.size) h
  simp only [Array.size_append, Array.extract_extract] at hfirst
  rw [LiesAt]
  have hend : min (p + bytes.size) (p + (bytes.size + bytes'.size)) = p + bytes.size := by omega
  rw [hend, Nat.add_zero, Array.extract_append_left] at hfirst
  rw [hfirst, Array.extract_size]

theorem right (h : (bytes ++ bytes').LiesAt data p) : bytes'.LiesAt data (p + bytes.size) := by
  have hrest := congrArg (fun all : Bytes => all.extract bytes.size (bytes.size + bytes'.size)) h
  simp only [Array.size_append, Array.extract_extract] at hrest
  have hend : min (p + (bytes.size + bytes'.size)) (p + (bytes.size + bytes'.size)) = p + bytes.size + bytes'.size := by omega
  rw [hend] at hrest
  have hsecond := extract_append_add bytes bytes' 0 bytes'.size
  rw [Nat.add_zero, Array.extract_size] at hsecond
  rw [LiesAt, hrest, hsecond]

theorem getElem? (h : bytes.LiesAt data p) {i : Nat} (hi : i < bytes.size) : data[p + i]? = bytes[i]? := by
  have hle := h.le
  have hbyte := congrArg (fun all : Bytes => all[i]?) h
  simp only [Array.getElem?_extract] at hbyte
  rw [if_pos (by omega)] at hbyte
  exact hbyte

theorem self (bytes : Bytes) : bytes.LiesAt bytes 0 := by
  rw [LiesAt, Nat.zero_add, Array.extract_size]

theorem append (bytes rest : Bytes) : bytes.LiesAt (bytes ++ rest) 0 := by
  rw [LiesAt, Nat.zero_add, Array.extract_append_left, Array.extract_size]

end Bytes.LiesAt

/-- Whatever is seen of a body here is seen in the body of a run. -/
def Shows (around scope : Option Scope) : Prop := ∀ s, around = some s → ∃ t, scope = some t ∧ s.Sees t

theorem Shows.refl (around : Option Scope) : Shows around around := fun s hs => ⟨s, hs, fun _ _ h => h⟩

/-- Outside every body nothing is seen. -/
theorem Shows.none (scope : Option Scope) : Shows none scope := by
  intro s hs
  cases hs

theorem Shows.leaves {around scope : Option Scope} (h : Shows around scope) (fires : Bool) : Shows around (leaves fires scope) := by
  intro s hs
  obtain ⟨t, rfl, hsees⟩ := h s hs
  exact ⟨t.leave fires, rfl, hsees⟩

/-- The value is written as these bytes, and read from them. -/
structure RoundTrips {α : Type} (around : Option Scope) (read : Unpacking α) (write : Packing Unit) (a : α) (bytes : Bytes)
    (fires : Bool) : Prop where
  writes : ∀ out w, Shows around w → Appends write out w bytes fires
  reads : ∀ data p u, Shows around u → bytes.LiesAt data p →
    read ⟨⟨data, p⟩, u⟩ = .ok (a, ⟨⟨data, p + bytes.size⟩, leaves fires u⟩)

section

variable {α β : Type} {Γ : Context} {around : Option Scope} {bytes bytes' : Bytes} {fires fires' : Bool}

/-- One step after another, in either direction. -/
theorem RoundTrips.seq {read : Unpacking α} {write : Packing Unit} {a : α} {readNext : α → Unpacking β}
    {writeNext : Unit → Packing Unit} {b : β} (h : RoundTrips around read write a bytes fires)
    (hnext : RoundTrips around (readNext a) (writeNext ()) b bytes' fires') :
    RoundTrips around (read >>= readNext) (write >>= writeNext) b (bytes ++ bytes') (fires || fires') where
  writes out w hw := (h.writes out w hw).seq (hnext.writes _ _ (hw.leaves fires))
  reads data p u hu hlies := by
    have hread := h.reads data p u hu hlies.left
    have hreadNext := hnext.reads data (p + bytes.size) (leaves fires u) (hu.leaves fires) hlies.right
    rw [Walk.bind_apply, hread]
    dsimp only
    rw [hreadNext, leaves_leaves, Array.size_append, Nat.add_assoc]

/-- What is read may be turned into something else. -/
theorem RoundTrips.map {read : Unpacking α} {write : Packing Unit} {a : α} {next : α → Unpacking β} {b : β}
    (h : RoundTrips around read write a bytes fires) (hnext : next a = pure b) :
    RoundTrips around (read >>= next) write b bytes fires where
  writes := h.writes
  reads data p u hu hlies := by
    rw [Walk.bind_apply, h.reads data p u hu hlies]
    dsimp only
    rw [hnext]
    rfl

/-- There is one value that is read. -/
theorem RoundTrips.value_unique {read : Unpacking α} {write : Packing Unit} {a b : α} (h : RoundTrips none read write a bytes fires)
    (h' : RoundTrips none read write b bytes' fires') : a = b := by
  have hwrites := (h.writes #[] none (.none none)).symm.trans (h'.writes #[] none (.none none))
  have hsame : bytes = bytes' := by
    have hmedium := congrArg (fun s : WalkState Bytes => s.medium) (congrArg Prod.snd (Except.ok.inj hwrites))
    simpa using hmedium
  have hread := h.reads bytes 0 none (.none none) (.self bytes)
  have hread' := h'.reads bytes' 0 none (.none none) (.self bytes')
  rw [hsame] at hread
  exact congrArg Prod.fst (Except.ok.inj (hread.symm.trans hread'))

theorem RoundTrips.nothing (around : Option Scope) (a : α) : RoundTrips around (pure a) (pure ()) a #[] false where
  writes out w _ := .nothing out w
  reads data p u _ _ := by
    rw [leaves_false]
    rfl

/-! ## Numbers, counts and regions -/

/-- A number that can be written is read as what its bytes stand for. -/
theorem roundTrips_encoded (around : Option Scope) {kind : Number} {v : Value} {run : List UInt8}
    (h : kind.encode Γ.options.byteOrder v = .ok run) :
    RoundTrips around (Unpacking.number Γ kind) (Packing.number Γ kind v) (kind.decode Γ.options.byteOrder run) run.toArray false where
  writes out w _ := .number h out w
  reads data p u _ hlies := by
    have hsize : run.toArray.size = kind.size := Number.length_of_encode h
    have hle := hlies.le
    rw [Bytes.LiesAt, hsize] at hlies
    rw [hsize] at hle
    refine Elements.number_eq_ok.mpr ⟨hle, ?_⟩
    rw [hlies, hsize, leaves_false]

theorem roundTrips_number (Γ : Context) (around : Option Scope) {kind : Number} {n : Int64} (h : kind.Stores n) :
    ∃ bytes, RoundTrips around (Unpacking.number Γ kind) (Packing.number Γ kind (.int n)) (.int n) bytes false := by
  obtain ⟨run, hencode, -, hdecode⟩ := h.exists_run Γ.options.byteOrder
  have htrip := roundTrips_encoded around hencode
  rw [hdecode] at htrip
  exact ⟨run.toArray, htrip⟩

theorem Count.prefixed?_eq {c : Candidate} {kind : Number} (hc : Γ.registry.resolve c = .ok (.number kind)) :
    Count.prefixed? Γ c = Unpacking.number Γ kind >>= Count.ofValue := by
  rw [Count.prefixed?, Walk.resolveNumber_eq_pure hc, pure_bind]

theorem roundTrips_count (around : Option Scope) {c : Candidate} {kind : Number} (hc : Γ.registry.resolve c = .ok (.number kind))
    (hint : kind.isFloat = false) {n : Nat} (hn : n ≤ kind.maxCount) :
    ∃ bytes, RoundTrips around (Count.prefixed? Γ c) (Count.pack Γ (.prefixed c) n) n bytes false := by
  obtain ⟨bytes, hnumber⟩ := roundTrips_number Γ around (Number.stores_count hint hn)
  have hmax := Number.maxCount_lt hint
  have hvalue : Count.ofValue (.ofCount n) = pure n := by
    rw [Count.ofValue, Number.count?_ofCount (by omega)]
  rw [Count.prefixed?_eq hc, Count.pack_prefixed hc hn]
  exact ⟨bytes, hnumber.map hvalue⟩

theorem roundTrips_take (around : Option Scope) (content : Bytes) :
    RoundTrips around (Unpacking.take content.size) (emit content) content content false where
  writes out w _ := .emit content out w
  reads data p u _ hlies := by
    refine Unpacking.take_eq_ok.mpr ⟨hlies.le, ?_⟩
    rw [hlies, leaves_false]

/-- A region of fixed size is read as what was filled up. -/
theorem roundTrips_region_fixed (Γ : Context) (around : Option Scope) (content : Bytes) (n : Nat) :
    RoundTrips around (Region.unpack Γ (.fixed n)) (Region.pack Γ (.fixed n) content) (content.fit n) (content.fit n) false := by
  have htake := roundTrips_take around (content.fit n)
  rw [Bytes.size_fit] at htake
  rw [Region.unpack_fixed]
  exact htake

/-- A region is read as what was written, when its count says how much that is. -/
theorem roundTrips_region (around : Option Scope) {size : Count} {content : Bytes} (h : size.Says Γ.registry content.size) :
    ∃ bytes, RoundTrips around (Region.unpack Γ size) (Region.pack Γ size content) content bytes false := by
  cases size with
  | fixed n =>
    obtain rfl : content.size = n := h
    have hregion := roundTrips_region_fixed Γ around content content.size
    rw [Bytes.fit_size] at hregion
    exact ⟨content, hregion⟩
  | prefixed c =>
    obtain ⟨kind, hc, hint, hle⟩ := h
    obtain ⟨bytes, hcount⟩ := roundTrips_count around hc hint hle
    rw [Region.unpack_prefixed]
    exact ⟨bytes ++ content, hcount.seq (roundTrips_take around content)⟩
  | auto => exact absurd h id

/-! ## Texts -/

theorem decode_eq_pure {text : String} (h : Γ.options.encoding.encode? text = some bytes) :
    Unpacking.decode Γ bytes = pure text := by
  rw [Unpacking.decode, Encoding.decode, Encoding.decode?_encode? h]
  rfl

theorem roundTrips_text {size : Count} {text : String} (h : Text.Fits Γ text size) :
    ∃ bytes, RoundTrips around (Text.unpack Γ size) (Text.pack Γ size (.text text)) (.text text) bytes false := by
  obtain ⟨content, hencode, hsize⟩ := h
  rw [Text.pack_eq hencode]
  cases size with
  | fixed n =>
    obtain ⟨hle, hlast⟩ := hsize
    have hback : content.back? ≠ some 0 := fun hzero => hlast (Encoding.nul_of_back?_zero hencode hzero)
    refine ⟨_, (roundTrips_region_fixed Γ around content n).map ?_⟩
    simp only [Count.isFixed, if_true, Text.dropPadding_fit hle hback, decode_eq_pure hencode, pure_bind]
  | prefixed c =>
    obtain ⟨bytes, hregion⟩ := roundTrips_region around hsize
    refine ⟨bytes, hregion.map ?_⟩
    simp only [Count.isFixed, Bool.false_eq_true, if_false, decode_eq_pure hencode, pure_bind]
  | auto => exact absurd hsize id

/-- Without a size the terminator is found behind the text, because the text has no zero byte. -/
theorem roundTrips_terminated {content : Bytes} (hnul : 0 ∉ content) :
    RoundTrips around (Walk.onMedium Text.takeTerminated) (Region.pack Γ .auto (content.push 0)) content (content.push 0)
      false where
  writes out w _ := by
    have hpack : Region.pack Γ .auto (content.push 0) = emit (content.push 0) := pure_bind _ _
    rw [hpack]
    exact .emit _ out w
  reads data p u _ hlies := by
    have hstop : data[p + content.size]? = some 0 := by
      rw [hlies.getElem? (by rw [Array.size_push]; omega), Array.getElem?_push_size]
    have hbefore : ∀ j, p ≤ j → j < p + content.size → data[j]? ≠ some 0 := by
      intro j hj hlt hzero
      obtain ⟨i, rfl⟩ := Nat.exists_eq_add_of_le hj
      have hi : i < content.size := by omega
      rw [hlies.getElem? (by rw [Array.size_push]; omega), Array.getElem?_push_lt hi] at hzero
      exact hnul (Array.mem_of_getElem (Option.some.inj hzero))
    have hcontent : data.extract p (p + content.size) = content := by
      rw [← Array.append_singleton] at hlies
      exact hlies.left
    rw [Text.terminated_apply_some (Nat.le_add_right _ _) hstop hbefore, hcontent, Array.size_push, leaves_false]
    rfl

theorem roundTrips_terminatedText {size : Count} {text : String} (h : Text.FitsTerminated Γ text size) :
    ∃ bytes, RoundTrips around (Text.unpackTerminated Γ size) (Text.packTerminated Γ size (.text text)) (.text text) bytes
      false := by
  obtain ⟨hfree, content, hencode, hsize⟩ := h
  have hnul : 0 ∉ content := fun hzero => hfree (Encoding.nul_of_zero_mem hencode hzero)
  rw [Text.packTerminated_eq hencode]
  cases size with
  | fixed n =>
    have hle : content.size ≤ n := hsize
    have hsized : Count.fixed n ≠ .auto := by
      intro h
      cases h
    rw [Text.unpackTerminated_region hsized]
    refine ⟨_, (roundTrips_region_fixed Γ around (content.push 0) n).map ?_⟩
    rw [Text.beforeTerminator_fit_push hle hnul, decode_eq_pure hencode, pure_bind]
  | prefixed c =>
    have hcount : (Count.prefixed c).Says Γ.registry (content.push 0).size := by
      rw [Array.size_push]
      exact hsize
    obtain ⟨bytes, hregion⟩ := roundTrips_region around hcount
    have hsized : Count.prefixed c ≠ .auto := by
      intro h
      cases h
    rw [Text.unpackTerminated_region hsized]
    refine ⟨bytes, hregion.map ?_⟩
    rw [Text.beforeTerminator_push hnul, decode_eq_pure hencode, pure_bind]
  | auto =>
    refine ⟨_, (roundTrips_terminated hnul).map ?_⟩
    dsimp only
    rw [decode_eq_pure hencode, pure_bind]

/-! ## Enumerations -/

/-- What stands for a number is written as it, and read for it. -/
theorem Enumeration.StandsFor.eq {names : List (String × Int64)} {v : Value} {n : Int64} (h : StandsFor names v n) :
    numberOf names v = .ok (.int n) ∧ nameOf names (.int n) = v := by
  cases h with
  | @name before after name n split first =>
    have hnew : name ∉ Keyed.keys before := by
      intro hmem
      obtain ⟨entry, hentry, heq⟩ := List.mem_map.mp hmem
      exact (first entry hentry).1 heq
    have hlookup : names.lookup name = some n := by
      rw [split]
      exact Keyed.lookup_append_cons_of_not_mem hnew n
    have hfound : (names.find? fun entry => (Value.int n).looselyEq (.int entry.2)) = some (name, n) := by
      rw [split, List.find?_append]
      have hnone : (before.find? fun entry => (Value.int n).looselyEq (.int entry.2)) = none := by
        rw [List.find?_eq_none]
        intro entry hentry hsame
        exact (first entry hentry).2 (eq_of_beq hsame).symm
      rw [hnone, Option.none_or, List.find?_cons_of_pos]
      exact beq_self_eq_true n
    exact ⟨by rw [numberOf, hlookup], by rw [nameOf, hfound]⟩
  | number nameless =>
    have hnone : (names.find? fun entry => (Value.int n).looselyEq (.int entry.2)) = none := by
      rw [List.find?_eq_none]
      intro entry hentry hsame
      exact nameless entry hentry (eq_of_beq hsame).symm
    exact ⟨rfl, by rw [nameOf, hnone]⟩

theorem roundTrips_enumeration {names : List (String × Int64)} {base : Candidate} {kind : Number} {v : Value} {n : Int64}
    (hc : Γ.registry.resolve base = .ok (.number kind)) (hnamed : Enumeration.StandsFor names v n) (hstores : kind.Stores n) :
    ∃ bytes, RoundTrips around (Enumeration.unpack Γ names base) (Enumeration.pack Γ names base v) v bytes false := by
  obtain ⟨hnumber, hname⟩ := hnamed.eq
  obtain ⟨bytes, hraw⟩ := roundTrips_number Γ around hstores
  have hunpack : Enumeration.unpack Γ names base =
      Unpacking.number Γ kind >>= fun raw => pure (Enumeration.nameOf names raw) := by
    rw [Enumeration.unpack, Walk.resolveNumber_eq_pure hc, pure_bind]
  rw [Enumeration.pack_eq hc hnumber, hunpack]
  refine ⟨bytes, hraw.map ?_⟩
  rw [hname]

end

end WireLayout
