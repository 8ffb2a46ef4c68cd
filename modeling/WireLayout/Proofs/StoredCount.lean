import WireLayout.Proofs.LinkedCount

/-!
# Counts that wrap

A linked array writes its count by the schema of the field that stores it. A number refuses a count that it cannot store exactly, but an
enumeration over a number, or a dependent field that selects a number, is written like any other value: the count is stored modulo the
range of the kind, and nothing is refused (`pack_storedCount`). So an array of 256 elements may be written with the count 0
(`pack_wraps`).
-/

namespace WireLayout

open Packing Codec

variable {Γ : Context}

/-! ## Counts modulo the range of a kind -/

namespace Number

variable {kind : Number}

/-- The low bits of a count do not depend on how many bits there are. -/
theorem ofNat_emod_range (h : kind.isFloat = false) (n : Nat) : ((Int64.ofNat n).toInt % kind.range).toNat = n % kind.range := by
  have hdvd : (kind.range : Int) ∣ 0x10000000000000000 := by
    cases kind with
    | float32 | float64 => cases h
    | int8 | uint8 => exact ⟨0x100000000000000, rfl⟩
    | int16 | uint16 => exact ⟨0x1000000000000, rfl⟩
    | int32 | uint32 => exact ⟨0x100000000, rfl⟩
  have hword : (Int64.ofNat n).toInt % 0x10000000000000000 = (n : Int) % 0x10000000000000000 := by
    rw [Int64.toInt_ofNat']
    exact Int.bmod_emod
  rw [← Int.emod_emod_of_dvd _ hdvd, hword, Int.emod_emod_of_dvd _ hdvd]
  omega

/-- A count that is written as any integer is read modulo the range, so it is read as itself just when the kind admits it. -/
theorem decode_count (h : kind.isFloat = false) {order : ByteOrder} {n : Nat} {run : List UInt8}
    (hrun : kind.encode order (.ofCount n) = .ok run) :
    ∃ m : Int64, kind.decode order run = .int m ∧ m.toInt = kind.representative (n % kind.range) ∧
      (m.toInt = n ↔ n ≤ kind.maxCount) := by
  have hlt : n % kind.range < kind.range := by
    obtain ⟨half, hrange, hpos, -⟩ := range_of_integral h
    exact Nat.mod_lt _ (by omega)
  obtain ⟨m, hdecode, hstores, -⟩ := exists_stores_of_run h order (length_of_encode hrun)
  have hm : m.toInt = kind.representative (n % kind.range) := by
    have hword : Bytes.toWord (Bytes.ofWord kind.size (n % kind.range)) = n % kind.range := by
      rw [Bytes.toWord_ofWord]
      exact Nat.mod_eq_of_lt hlt
    rw [Value.ofCount, encode_int h, ofNat_emod_range h] at hrun
    cases hrun
    rw [decode_int h, ByteOrder.arrange_arrange, hword] at hdecode
    rw [← Value.int.inj hdecode]
    have hmax := maxCount_lt h
    obtain ⟨hlower, hupper⟩ := representative_bounds h hlt
    have hleast : -0x100000000 ≤ kind.least := by
      obtain ⟨half, hrange, -, hle⟩ := range_of_integral h
      rw [least]
      split <;> omega
    exact Int64.toInt_ofInt_of_le (by omega) (by omega)
  refine ⟨m, hdecode, hm, ?_, ?_⟩
  · intro heq
    have hupper := hstores.upper
    omega
  · intro hle
    have hself := (stores_count h hle).representative_emod
    rw [ofNat_emod_range h] at hself
    have hmax := maxCount_lt h
    rw [hm, hself, Int64.toInt_ofNat_of_lt (by omega)]

end Number

namespace LinkedCount

variable {L : LinkedCount Γ} {stored : Schema} {kind : Number} {v : Value} {depth : Nat}

/-- One value is its own twin. -/
theorem twins_self (hcounter : Γ.registry.resolve L.counter = .ok stored) (hstored : CountsAs Γ v stored kind) (n : Nat) :
    L.Twins (fun _ => False) v v n kind.size fun content => kind.encode Γ.options.byteOrder (.ofCount n) = .ok content.toList ∧
      (stored = .number kind → n ≤ kind.maxCount) := by
  have hfields : ∀ (P : Pairing) s t, P.veil = L.veil Γ.registry (fun _ => False) → P.value = v → P.Pairs Γ s t →
      (∀ field, s.field? field = v.get? field) ∧ ∀ field, t.field? field = v.get? field := by
    intro P s t hveil hvalue hpairs
    have hleft : ∀ field, s.field? field = v.get? field := by
      intro field
      rw [Scope.field?, hpairs.value, hvalue]
    refine ⟨hleft, fun field => ?_⟩
    rw [hpairs.read field (by rw [hveil]; exact id), hleft]
  refine ⟨fun _ _ => rfl, fun _ _ => rfl, ?_, ?_⟩
  · intro depth P m s t hveil hvalue hpairs
    obtain ⟨hs, ht⟩ := hfields P s t hveil hvalue hpairs
    obtain ⟨result, hbytes, hresult⟩ := hstored.exists_result depth ((v.get? L.count).getD .null)
    rw [Packing.candidate_eq hcounter, hresult m s hs, hresult m t ht]
    cases result with
    | error stop => exact .stop stop
    | ok bytes => exact .ok ⟨⟨m.size, bytes, bytes, rfl⟩, (hbytes bytes rfl).1, rfl, rfl, rfl⟩
  · intro depth P m m' s t hveil hvalue hpairs
    obtain ⟨hs, ht⟩ := hfields P s t hveil hvalue hpairs
    obtain ⟨result, hbytes, hresult⟩ := hstored.exists_count hcounter depth n
    rw [hresult m s hs, hresult m' t ht]
    cases result with
    | error stop => exact .stop stop
    | ok bytes => exact .ok ⟨bytes, (hbytes bytes rfl).2, (hbytes bytes rfl).1, rfl, rfl⟩

/-- What the count of a linked array reads as where the schema that stores it writes one integer. Let the body be as for
`pack_linkedCount`, except that the count may be a number, an enumeration over one, or a dependent field that selects one, and that it
may be read. When the object is written, the number at the place of the count is the number of elements modulo the range of the kind.
This is the true count just when the kind admits it, which is certain only for a count that is itself a number: there a count that is
too large overflows. -/
theorem pack_storedCount (hcounter : Γ.registry.resolve L.counter = .ok stored) (hint : kind.isFloat = false) {fields : Keyed Value}
    (hstored : CountsAs Γ (.record fields) stored kind) {items : List Value}
    (hitems : (fields.lookup L.array).getD .null = .list items ∨ (fields.lookup L.array).getD .null = .null ∧ items = [])
    (hspares : L.Spares (fun _ => False) (.record fields)) (hstays : L.Stays depth (.record fields)) (out : Bytes)
    (around : Option Scope) :
    (stored = .number kind → kind.maxCount < items.length → ∀ scope s,
        Body.packFirst (candidate Γ (pack Γ depth)) (.record fields) L.first (.writing L.layout (.record fields)) ⟨out, around⟩ =
          .ok (scope, s) →
        pack Γ (depth + 1) (.object L.layout) (.record fields) ⟨out, around⟩ =
          .error (.fault (.countOverflow items.length kind.name kind.maxCount))) ∧
      ∀ s', pack Γ (depth + 1) (.object L.layout) (.record fields) ⟨out, around⟩ = .ok ((), s') →
        (stored = .number kind → items.length ≤ kind.maxCount) ∧ ∃ scope s m,
          Body.packFirst (candidate Γ (pack Γ depth)) (.record fields) L.before (.writing L.layout (.record fields)) ⟨out, around⟩ =
            .ok (scope, s) ∧
          kind.unpack Γ.options.byteOrder ⟨s'.medium, s.medium.size⟩ = .ok (.int m, ⟨s'.medium, s.medium.size + kind.size⟩) ∧
          m.toInt = kind.representative (items.length % kind.range) ∧ (m.toInt = items.length ↔ items.length ≤ kind.maxCount) := by
  have htwins := twins_self hcounter hstored items.length
  rw [pack_object]
  refine ⟨?_, ?_⟩
  · rintro rfl hover scope s hfirst
    exact htwins.overflow hspares hstays (Elements.ofValue_eq hitems) hcounter hover hfirst
  · intro s' hpacked
    have hboth := htwins.packFields hspares hstays (Elements.ofValue_eq hitems) out around
    rw [hpacked] at hboth
    obtain ⟨_, -, scope, s, content, hbefore, ⟨hencode, hle⟩, hsize, ⟨hcontent⟩⟩ := hboth.exists_of_ok
    obtain ⟨m, hdecode, hm, hcount⟩ := Number.decode_count hint hencode
    refine ⟨hle, scope, s, m, hbefore, ?_, hm, hcount⟩
    rw [Number.unpack_eq_decode _ hsize hcontent, hdecode]

end LinkedCount

namespace Tally

/-- Bytes behind their count, which is an enumeration. -/
def counted : CountedFields where
  before := []
  count := "count"
  counter := .enums [("one", 1)] (.number .uint8)
  between := []
  array := "items"
  linked := .link "count" (.number .uint8)
  after := []

theorem counted_plain :
    Site.Throughout Packet.context.registry .any (fun site => site.schema.isCustom = false) (.top (.object counted.layout)) := by
  have henums : ∀ place, Site.Throughout Packet.context.registry .any (fun site => site.schema.isCustom = false)
      ⟨.enums [("one", 1)] (.number .uint8), place, false⟩ := by
    intro place
    refine Site.throughout_intro rfl ?_
    intro site' hr
    cases hr
  refine Site.throughout_object rfl ?_
  intro i key c schema hi hc
  rcases i with _ | _ | i
  · cases hi
    cases hc
    exact henums _
  · cases hi
    cases hc
    refine Site.throughout_link rfl ?_ ?_
    · rintro _ ⟨⟩
      exact Site.throughout_number rfl
    · rintro _ _ ⟨⟩ ⟨⟩
      exact henums _
  · cases hi

def linkedCount : LinkedCount Packet.context where
  toCountedFields := counted
  item := .number .uint8
  links := rfl
  distinct := by decide
  plain := counted_plain

def fields : Keyed Value := [("items", .list (List.replicate 256 (.int 0)))]

theorem countsAs : CountsAs Packet.context (.record fields) (.enums [("one", 1)] (.number .uint8)) .uint8 := .enums rfl

theorem linkedCount_spares (unread : String → Prop) (v : Value) : linkedCount.Spares unread v := by
  refine ⟨?_, fun schema hc => ?_⟩
  · intro pre key c post schema hsplit hkey hc
    rcases pre with _ | ⟨_, _ | ⟨_, _⟩⟩
    · cases hsplit
      cases hc
      refine Site.throughoutBody_intro trivial ?_
      rintro site' ⟨-, hr⟩
      cases hr
    · cases hsplit
      exact absurd rfl hkey
    · simp [linkedCount, counted, CountedFields.fields] at hsplit
  · cases hc
    exact Site.throughoutBody_number trivial

end Tally

set_option maxRecDepth 4000 in
/-- For 256 elements the count reads as the representative of 256. -/
theorem LinkedCount.pack_storedCount_tally :
    ∃ s' m, pack Packet.context 4 (.object Tally.linkedCount.layout) (.record Tally.fields) ⟨#[], none⟩ = .ok ((), s') ∧
      Number.unpack .uint8 .little ⟨s'.medium, 0⟩ = .ok (.int m, ⟨s'.medium, 1⟩) ∧
      m.toInt = Number.uint8.representative (256 % Number.uint8.range) := by
  have hpacked : pack Packet.context 4 (.object Tally.linkedCount.layout) (.record Tally.fields) ⟨#[], none⟩ =
      .ok ((), ⟨Bytes.zeros 257, none⟩) := rfl
  obtain ⟨-, scope, s, m, hbefore, hread, hm, -⟩ := (pack_storedCount (L := Tally.linkedCount) rfl rfl Tally.countsAs (Or.inl rfl)
    (Tally.linkedCount_spares _ _) (stays_of_adjacent rfl rfl rfl Tally.countsAs) #[] none).2 _ hpacked
  cases hbefore
  exact ⟨_, m, hpacked, hread, hm⟩

set_option maxRecDepth 4000 in
/-- The count 256 is written as 0, and nothing is refused. -/
theorem pack_wraps :
    ∃ s', pack Packet.context 4 (.object Tally.linkedCount.layout) (.record Tally.fields) ⟨#[], none⟩ = .ok ((), s') ∧
      Number.unpack .uint8 .little ⟨s'.medium, 0⟩ = .ok (.int 0, ⟨s'.medium, 1⟩) ∧ Number.uint8.maxCount < 256 :=
  ⟨⟨Bytes.zeros 257, none⟩, rfl, rfl, by decide⟩

end WireLayout
