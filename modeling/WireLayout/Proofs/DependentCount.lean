import WireLayout.Proofs.ContextFree
import WireLayout.Proofs.Footprints
import WireLayout.Proofs.LinkedCount
import WireLayout.Proofs.Refusals
import WireLayout.Proofs.RoundTrip

/-!
# The count that a field depends on

An array that depends on a field in front of it has as many elements as the field says, in either direction. The field is a number: it is
written as bytes and seen as a value, and the two agree where the value is an integer that the number stores. They do not agree for null,
which is zero as a number, but as a count stands for however many elements there are: such elements are written, and are not read back
(`DependentCount.unpack_counted`).
-/

namespace WireLayout

open Packing Codec

/-! ## Fields that stand by themselves -/

/-- Integers, and texts behind their length as an integer. -/
inductive Schema.Inline (r : Registry) : Schema → Prop where
  | number {kind : Number} (integral : kind.isFloat = false) : Inline r (.number kind)
  | string {c : Candidate} {kind : Number} (resolved : r.resolve c = .ok (.number kind)) (integral : kind.isFloat = false) :
      Inline r (.string (.prefixed c))

section

variable {Γ : Context}

/-- What is written as a text behind its length is a text that fits, or null, which is the empty one. -/
theorem Text.fits_of_pack {c : Candidate} {kind : Number} (resolved : Γ.registry.resolve c = .ok (.number kind))
    (integral : kind.isFloat = false) {v : Value} {s s' : WalkState Bytes} (h : Text.pack Γ (.prefixed c) v s = .ok ((), s')) :
    ∃ text, Text.Fits Γ text (.prefixed c) ∧ Text.pack Γ (.prefixed c) v = Text.pack Γ (.prefixed c) (.text text) := by
  have named : ∃ text, Text.ofValue v = pure text := by
    cases v with
    | null => exact ⟨_, rfl⟩
    | text text => exact ⟨_, rfl⟩
    | _ => cases h
  obtain ⟨text, htext⟩ := named
  have same : Text.pack Γ (.prefixed c) v = Text.pack Γ (.prefixed c) (.text text) := by
    rw [Text.pack, Text.pack, htext]
    rfl
  refine ⟨text, ?_, same⟩
  rw [same] at h
  cases hencode : Γ.options.encoding.encode? text with
  | none =>
    rw [Text.pack, Text.ofValue, pure_bind, Packing.encode, Encoding.encode, hencode] at h
    cases h
  | some content =>
    refine ⟨content, hencode, kind, resolved, integral, Nat.le_of_not_lt fun exceeds => ?_⟩
    rw [Text.pack_eq hencode] at h
    obtain ⟨_, _, hcount, -⟩ := Walk.bind_eq_ok.mp h
    simp only [Count.pack, Walk.resolveNumber_eq_pure resolved, pure_bind, Packing.onOutput, Number.packCount, if_pos exceeds] at hcount
    cases hcount

/-- Null is read back as zero. -/
theorem roundTrips_null (Γ : Context) (around : Option Scope) {kind : Number} (integral : kind.isFloat = false) :
    ∃ bytes, RoundTrips around (Unpacking.number Γ kind) (number Γ kind .null) (.int 0) bytes false := by
  have zero : number Γ kind .null = number Γ kind (.int 0) := by
    cases kind with
    | float32 | float64 => cases integral
    | _ => rfl
  have stores : kind.Stores 0 := Number.stores_count integral (Nat.zero_le _)
  rw [zero]
  exact roundTrips_number Γ around stores

/-- Whatever is written by such a schema is read back as some value, wherever it stands. -/
theorem Schema.Inline.roundTrips {schema : Schema} (inline : schema.Inline Γ.registry) {depth : Nat} {v : Value}
    {s s' : WalkState Bytes} (h : pack Γ depth schema v s = .ok ((), s')) :
    ∃ w bytes, RoundTrips none (unpack Γ depth schema) (pack Γ depth schema v) w bytes false := by
  cases depth with
  | zero => cases h
  | succ depth =>
    cases inline with
    | number integral =>
      obtain ⟨run, hencode, -, -⟩ := pack_number_eq_ok h
      exact ⟨_, _, roundTrips_encoded none hencode⟩
    | @string c kind resolved integral =>
      obtain ⟨text, fits, same⟩ := Text.fits_of_pack resolved integral h
      obtain ⟨bytes, trip⟩ : ∃ bytes, RoundTrips none (Text.unpack Γ (.prefixed c)) (Text.pack Γ (.prefixed c) (.text text)) (.text text)
        bytes false := roundTrips_text fits
      rw [← same] at trip
      exact ⟨_, _, trip⟩

end

/-! ## Bodies of such fields -/

namespace Body

/-- Fields that are written for a value as these bytes, and read back with these contents. -/
inductive Recovers (read : Candidate → Unpacking Value) (write : Candidate → Value → Packing Unit) (v : Value) :
    Keyed Candidate → List Value → Bytes → Prop where
  | nil : Recovers read write v [] [] #[]
  | cons {key : String} {c : Candidate} {rest : Keyed Candidate} {w : Value} {contents : List Value} {bytes bytes' : Bytes}
      (first : RoundTrips none (read c) (write c ((v.get? key).getD .null)) w bytes false)
      (behind : Recovers read write v rest contents bytes') :
      Recovers read write v ((key, c) :: rest) (w :: contents) (bytes ++ bytes')

variable {read : Candidate → Unpacking Value} {write : Candidate → Value → Packing Unit} {v : Value} {fields : Keyed Candidate}
  {contents : List Value} {bytes : Bytes}

theorem Recovers.length_eq (h : Recovers read write v fields contents bytes) : contents.length = fields.length := by
  induction h with
  | nil => rfl
  | cons _ _ ih => exact congrArg (· + 1) ih

/-- A field among others. -/
theorem Recovers.split {before after : Keyed Candidate} {key : String} {c : Candidate}
    (h : Recovers read write v (before ++ (key, c) :: after) contents bytes) :
    ∃ front w back part, contents = front ++ w :: back ∧ front.length = before.length ∧
      RoundTrips none (read c) (write c ((v.get? key).getD .null)) w part false := by
  induction before generalizing contents bytes with
  | nil =>
    cases h with
    | cons first _ => exact ⟨[], _, _, _, rfl, rfl, first⟩
  | cons entry before ih =>
    cases h with
    | cons _ behind =>
      obtain ⟨front, w, back, part, hcontents, hlength, trip⟩ := ih behind
      exact ⟨_ :: front, w, back, part, congrArg (_ :: ·) hcontents, congrArg (· + 1) hlength, trip⟩

/-- Where each field is read back once it is written, so are all of them; and nothing else happens to the body. -/
theorem exists_recovers
    (each : ∀ field ∈ fields, ∀ x s s', write field.2 x s = .ok ((), s') → ∃ w bytes, RoundTrips none (read field.2) (write field.2 x) w bytes false)
    {scope : Scope} (inside : scope.isExited = false) {out : Bytes} {around : Option Scope} {r : Scope × WalkState Bytes}
    (h : packFirst write v fields scope ⟨out, around⟩ = .ok r) :
    ∃ contents bytes, Recovers read write v fields contents bytes ∧ r.2 = ⟨out ++ bytes, around⟩ ∧ r.1.isExited = false ∧
      r.1.value = scope.value := by
  induction fields generalizing scope out with
  | nil =>
    cases h
    exact ⟨[], #[], .nil, by rw [Array.append_empty], inside, rfl⟩
  | cons entry rest ih =>
    obtain ⟨key, c⟩ := entry
    rw [packFirst_cons inside] at h
    cases written : write c ((v.get? key).getD .null) ⟨out, some (scope.mark key out.size)⟩ with
    | error stop =>
      rw [written] at h
      cases h
    | ok result =>
      obtain ⟨w, bytes, trip⟩ := each _ List.mem_cons_self _ _ _ written
      have appended := trip.writes out (some (scope.mark key out.size)) (.none _)
      rw [appended, leaves_false] at h
      change packFirst write v rest (scope.mark key out.size) ⟨out ++ bytes, around⟩ = .ok r at h
      have hmark : (scope.mark key out.size).isExited = false := inside
      obtain ⟨contents, bytes', behind, hout, hinside, hvalue⟩ := ih (fun field hmem => each field (List.mem_cons_of_mem _ hmem)) hmark h
      exact ⟨w :: contents, bytes ++ bytes', .cons trip behind, by rw [hout, Array.append_assoc], hinside, hvalue⟩

/-- The contents are read from the bytes, wherever they lie. -/
theorem Recovers.reads (h : Recovers read write v fields contents bytes) {layout : Layout} (wellFormed : layout.WellFormed)
    {before after : Keyed Candidate} (split : layout.entries = before ++ (fields ++ after)) {done : List Value}
    (hlength : done.length = before.length) {scope : Scope} (hvalue : scope.value = layout.valueOf done)
    (inside : scope.isExited = false) {data : Bytes} {p : Nat} (hlies : bytes.LiesAt data p) (around : Option Scope) :
    ∃ scope', unpackFields read fields scope ⟨⟨data, p⟩, around⟩ = .ok (scope', ⟨⟨data, p + bytes.size⟩, around⟩) ∧
      scope'.isExited = false ∧ scope'.value = layout.valueOf (done ++ contents) := by
  induction h generalizing before done scope p with
  | nil => exact ⟨scope, rfl, inside, by rw [List.append_nil, hvalue]⟩
  | @cons key c rest w contents bytes bytes' first behind ih =>
    have hpush := Layout.push_value wellFormed split hlength hvalue w
    have hopen : (scope.push key w).isExited = false := by rw [Scope.isExited_push, inside]
    obtain ⟨scope', hrest, hinside, hvalue'⟩ :=
      ih (Keyed.split_next split) (Keyed.length_next hlength w (key, c)) hpush hopen hlies.right
    rw [Nat.add_assoc, ← Array.size_append] at hrest
    rw [List.append_assoc] at hvalue'
    have hfirst := first.reads data p (some scope) (.none _) hlies.left
    rw [leaves_false] at hfirst
    exact ⟨scope', (unpackFields_cons_eq_ok inside).mpr ⟨w, _, hfirst, hrest⟩, hinside, hvalue'⟩

end Body

/-! ## An array of as many elements -/

/-- The fields of a body in which the last one is an array of numbers that depends on a number in front of it, among fields that stand by
themselves. -/
structure DependentCount (Γ : Context) extends CountedFields where
  item : Candidate
  countKind : Number
  itemKind : Number
  depends : Γ.registry.resolve linked = .ok (.depend count (.counting item))
  counts : Γ.registry.resolve counter = .ok (.number countKind)
  integral : countKind.isFloat = false
  numbers : Γ.registry.resolve item = .ok (.number itemKind)
  inline : ∀ field ∈ toCountedFields.first, ∃ schema, Γ.registry.resolve field.2 = .ok schema ∧ schema.Inline Γ.registry
  last : after = []
  distinct : (Keyed.keys toCountedFields.fields).Nodup

namespace DependentCount

variable {Γ : Context} (D : DependentCount Γ) {v : Value}

theorem wellFormed : D.layout.WellFormed := D.distinct

theorem entries_eq : D.layout.entries = D.first ++ [(D.array, D.linked)] := by
  rw [CountedFields.layout, Layout.entries, CountedFields.fields_eq, D.last]

/-- What is written, when the value shows a count that is not the name of a number: the fields in front, which are recovered, and the
elements. The array is three levels below the top. -/
theorem exists_written {depth : Nat} {s' : WalkState Bytes} (h : pack Γ depth (.object D.layout) v ⟨#[], none⟩ = .ok ((), s'))
    {shown : Value} (found : v.get? D.count = some shown) {count : Count} (counted : (Argument.value shown).count .array = .ok count)
    (bare : ∀ c, count ≠ .prefixed c) :
    ∃ below contents front tail, depth = below + 3 ∧
      Body.Recovers (Unpacking.candidate Γ (unpack Γ (below + 2))) (candidate Γ (pack Γ (below + 2))) v D.first contents front ∧
      s'.medium = front ++ tail ∧ tail.size = D.itemKind.size * count.lengthFor ((v.get? D.array).getD .null) := by
  have selects : (Selector.counting D.item).select shown = .ok (.array D.item count) := by
    rw [Selector.select_counting, counted]
    rfl
  cases depth with
  | zero => cases h
  | succ depth =>
    obtain ⟨-, scope, s₁, hfirst, hlast⟩ := (Body.packObject_eq_ok D.entries_eq).mp h
    have each : ∀ field ∈ D.first, ∀ x s s', candidate Γ (pack Γ depth) field.2 x s = .ok ((), s') →
        ∃ w bytes, RoundTrips none (Unpacking.candidate Γ (unpack Γ depth) field.2) (candidate Γ (pack Γ depth) field.2 x) w bytes false := by
      intro field hmem x s s' hs
      obtain ⟨schema, resolved, inline⟩ := D.inline field hmem
      rw [candidate_eq resolved] at hs ⊢
      rw [Unpacking.candidate_eq resolved]
      exact inline.roundTrips hs
    obtain ⟨contents, front, recovers, rfl, inside, hvalue⟩ := Body.exists_recovers each rfl hfirst
    have hfield : ∀ start, (scope.mark D.array start).field? D.count = some shown := by
      intro start
      rw [Scope.field?, Scope.mark, hvalue]
      exact found
    obtain ⟨inner, harray⟩ := Body.packFields_single inside hlast
    rw [candidate_eq D.depends] at harray
    cases depth with
    | zero => cases harray
    | succ depth =>
      change Sibling.packDepend Γ (pack Γ depth) D.count (.counting D.item) _ _ = _ at harray
      rw [Sibling.packDepend_apply (hfield _) selects rfl] at harray
      cases depth with
      | zero => cases harray
      | succ below =>
        obtain ⟨tail, hsize, hout⟩ := Writes.array D.numbers (fun v => .number D.itemKind v) bare _ _ _ harray
        exact ⟨below, contents, front, tail, rfl, recovers, by rw [hout, Array.empty_append], hsize⟩

/-- What is read, when the fields in front are recovered and the count among them is a number: as many elements, if there are bytes for
them. -/
theorem unpack_recovered {below : Nat} {contents : List Value} {front tail : Bytes}
    (h : Body.Recovers (Unpacking.candidate Γ (unpack Γ (below + 2))) (candidate Γ (pack Γ (below + 2))) v D.first contents front)
    {shown : Value} (found : (D.layout.valueOf contents).get? D.count = some shown) {n : Nat}
    (counted : (Argument.value shown).count .array = .ok (.fixed n)) (room : D.itemKind.size * n ≤ tail.size) :
    ∃ items, items.length = n ∧ unpack Γ (below + 3) (.object D.layout) ⟨Cursor.ofBytes (front ++ tail), none⟩ =
      .ok (D.layout.valueOf (contents ++ [.list items]), ⟨⟨front ++ tail, front.size + D.itemKind.size * n⟩, none⟩) := by
  have split : D.layout.entries = [] ++ (D.first ++ [(D.array, D.linked)]) := D.entries_eq
  have hstart : (Scope.reading D.layout).value = D.layout.valueOf [] := D.layout.valueOf_nil.symm
  obtain ⟨scope, hfields, inside, hvalue⟩ := h.reads D.wellFormed split rfl hstart rfl (.append front tail) none
  rw [Nat.zero_add] at hfields
  have selects : (Selector.counting D.item).select shown = .ok (.array D.item (.fixed n)) := by
    rw [Selector.select_counting, counted]
    rfl
  have hfield : scope.field? D.count = some shown := by
    rw [Scope.field?, hvalue]
    exact found
  let items := Elements.numbersAt Γ D.itemKind (front ++ tail) front.size n
  have helements : unpack Γ (below + 1) (.array D.item (.fixed n)) ⟨⟨front ++ tail, front.size⟩, some scope⟩ =
      .ok (.list items, ⟨⟨front ++ tail, front.size + D.itemKind.size * n⟩, some scope⟩) := by
    show Elements.unpackArray Γ (unpack Γ below) D.item (.fixed n) _ = _
    rw [Elements.unpackArray_fixed]
    refine (Elements.unpack_eq_ok D.numbers).mpr ⟨items, Elements.times_number_eq_ok.mpr ⟨?_, rfl⟩, rfl⟩
    rw [Array.size_append]
    omega
  have harray : Unpacking.candidate Γ (unpack Γ (below + 2)) D.linked ⟨⟨front ++ tail, front.size⟩, some scope⟩ =
      .ok (.list items, ⟨⟨front ++ tail, front.size + D.itemKind.size * n⟩, some scope⟩) := by
    rw [Unpacking.candidate_eq D.depends]
    exact Sibling.unpackDepend_eq_ok.mpr ⟨scope, shown, _, _, rfl, hfield, selects, rfl, helements⟩
  have hpush := Layout.push_value D.wellFormed D.entries_eq h.length_eq hvalue (.list items)
  have hbody : Body.unpackFields (Unpacking.candidate Γ (unpack Γ (below + 2))) D.layout.entries (.reading D.layout)
      ⟨Cursor.ofBytes (front ++ tail), none⟩ =
        .ok (scope.push D.array (.list items), ⟨⟨front ++ tail, front.size + D.itemKind.size * n⟩, none⟩) := by
    rw [D.entries_eq, Body.unpackFields_append]
    exact Walk.bind_eq_ok.mpr ⟨scope, _, hfields, (Body.unpackFields_cons_eq_ok inside).mpr ⟨_, _, harray, rfl⟩⟩
  refine ⟨items, by simp [items, Elements.numbersAt], Walk.bind_eq_ok.mpr ⟨_, _, hbody, ?_⟩⟩
  rw [← hpush]
  rfl

/-- The count is read back as it is seen in the bytes. -/
theorem get?_count_of_recovers {read : Candidate → Unpacking Value} {write : Candidate → Value → Packing Unit} {contents : List Value}
    {bytes : Bytes} (h : Body.Recovers read write v D.first contents bytes) {w : Value} {part : Bytes}
    (trip : RoundTrips none (read D.counter) (write D.counter ((v.get? D.count).getD .null)) w part false) (more : List Value) :
    (D.layout.valueOf (contents ++ more)).get? D.count = some w := by
  obtain ⟨front, w', back, part', rfl, hlength, trip'⟩ := h.split
  rw [trip.value_unique trip', List.append_assoc]
  exact Layout.get?_valueOf D.wellFormed rfl hlength w' _

/-- What is written for a count that is seen in one way, and read as a number: as many elements are read as the number says, if that many
are written. -/
theorem unpack_shown {c : Candidate} (hc : Γ.registry.resolve c = .ok (.object D.layout)) {bytes : Bytes}
    (packed : Γ.registry.packWith c v Γ.options = .ok bytes) {shown : Value} (found : v.get? D.count = some shown) {count : Count}
    (counted : (Argument.value shown).count .array = .ok count) (bare : ∀ c, count ≠ .prefixed c) {w : Value} {part : Bytes}
    (trip : RoundTrips none (Unpacking.number Γ D.countKind) (number Γ D.countKind shown) w part false) {n : Nat}
    (read : (Argument.value w).count .array = .ok (.fixed n)) (enough : n ≤ count.lengthFor ((v.get? D.array).getD .null)) :
    ∃ u items p, unpackCandidate Γ c ⟨Cursor.ofBytes bytes, none⟩ = .ok (u, ⟨⟨bytes, p⟩, none⟩) ∧ u.get? D.count = some w ∧
      u.get? D.array = some (.list items) ∧ items.length = n ∧
      bytes.size + D.itemKind.size * n = p + D.itemKind.size * count.lengthFor ((v.get? D.array).getD .null) := by
  rw [packWith_of_resolve hc] at packed
  rw [unpackCandidate, Unpacking.candidate_eq hc]
  obtain ⟨scope, hrun⟩ := packed_eq_ok.mp packed
  obtain ⟨below, contents, front, tail, hdepth, recovers, hbytes, hsize⟩ := D.exists_written hrun found counted bare
  dsimp only at hbytes
  subst hbytes
  have hcounter : RoundTrips none (Unpacking.candidate Γ (unpack Γ (below + 2)) D.counter)
      (candidate Γ (pack Γ (below + 2)) D.counter ((v.get? D.count).getD .null)) w part false := by
    rw [Unpacking.candidate_eq D.counts, candidate_eq D.counts, found]
    exact trip
  have hcount := D.get?_count_of_recovers recovers hcounter
  have hfound : (D.layout.valueOf contents).get? D.count = some w := by
    rw [← List.append_nil contents]
    exact hcount []
  have room : D.itemKind.size * n ≤ tail.size := by
    rw [hsize]
    exact Nat.mul_le_mul_left _ enough
  obtain ⟨items, hlength, hread⟩ := D.unpack_recovered recovers hfound read room
  rw [hdepth]
  refine ⟨_, items, _, hread, hcount _, ?_, hlength, ?_⟩
  · exact Layout.get?_valueOf D.wellFormed D.entries_eq recovers.length_eq (.list items) []
  · rw [Array.size_append, hsize]
    omega

/-- A count that is no count in the value, but zero in the bytes. -/
theorem unpack_null {c : Candidate} (hc : Γ.registry.resolve c = .ok (.object D.layout)) {bytes : Bytes}
    (packed : Γ.registry.packWith c v Γ.options = .ok bytes) (found : v.get? D.count = some .null) :
    ∃ w p, unpackCandidate Γ c ⟨Cursor.ofBytes bytes, none⟩ = .ok (w, ⟨⟨bytes, p⟩, none⟩) ∧
      w.get? D.count = some (.int 0) ∧ w.get? D.array = some (.list []) ∧
      bytes.size = p + D.itemKind.size * Count.auto.lengthFor ((v.get? D.array).getD .null) := by
  have bare : ∀ c, Count.auto ≠ .prefixed c := by
    rintro c ⟨⟩
  obtain ⟨part, trip⟩ := roundTrips_null Γ none D.integral
  obtain ⟨u, items, p, hread, hcount, harray, hlength, hsize⟩ := D.unpack_shown hc packed found rfl bare trip rfl (Nat.zero_le _)
  obtain rfl := List.eq_nil_of_length_eq_zero hlength
  exact ⟨u, p, hread, hcount, harray, hsize⟩

/-- What depends on a count that is written. When the count is an integer that its kind stores and that is not negative, all that is
written is read back, and the array has as many elements as the count says. When the count is null, zero is written and read back for it,
and no element is read; but all elements of the value are written, and are left unread. -/
theorem unpack_counted {c : Candidate} (hc : Γ.registry.resolve c = .ok (.object D.layout)) {v : Value} {bytes : Bytes}
    (packed : Γ.registry.packWith c v Γ.options = .ok bytes) :
    (∀ m, v.get? D.count = some (.int m) → D.countKind.Stores m → 0 ≤ m.toInt →
      ∃ w items, unpackCandidate Γ c ⟨Cursor.ofBytes bytes, none⟩ = .ok (w, ⟨⟨bytes, bytes.size⟩, none⟩) ∧
        w.get? D.count = some (.int m) ∧ w.get? D.array = some (.list items) ∧ (items.length : Int) = m.toInt) ∧
    (v.get? D.count = some .null →
      ∃ w p, unpackCandidate Γ c ⟨Cursor.ofBytes bytes, none⟩ = .ok (w, ⟨⟨bytes, p⟩, none⟩) ∧
        w.get? D.count = some (.int 0) ∧ w.get? D.array = some (.list []) ∧
        bytes.size = p + D.itemKind.size * Count.auto.lengthFor ((v.get? D.array).getD .null)) := by
  refine ⟨?_, D.unpack_null hc packed⟩
  intro m found stores nonneg
  have counted : (Argument.value (.int m)).count .array = .ok (.fixed m.toInt.toNat) := by
    simp only [Argument.count, Value.isNumber, Value.count?, if_pos nonneg, if_true]
  have bare : ∀ c, Count.fixed m.toInt.toNat ≠ .prefixed c := by
    rintro c ⟨⟩
  obtain ⟨part, trip⟩ := roundTrips_number Γ none stores
  obtain ⟨u, items, p, hread, hcount, harray, hlength, hsize⟩ :=
    D.unpack_shown hc packed found counted bare trip counted (Nat.le_refl _)
  obtain rfl : bytes.size = p := Nat.add_right_cancel hsize
  exact ⟨u, items, hread, hcount, harray, by omega⟩

end DependentCount

namespace Playlist

/-- A title, how many tracks there are, and the tracks. -/
def dependentCount : DependentCount Packet.context where
  before := [("title", .string (.prefixed (.name "uint8")))]
  count := "n"
  counter := .name "uint8"
  between := []
  array := "tracks"
  linked := .dependArray "n" (.name "uint8")
  after := []
  item := .name "uint8"
  countKind := .uint8
  itemKind := .uint8
  depends := rfl
  counts := rfl
  integral := rfl
  numbers := rfl
  inline := by
    rintro ⟨key, c⟩ (_ | ⟨_, _ | ⟨_, ⟨⟩⟩⟩)
    · exact ⟨_, rfl, .string rfl rfl⟩
    · exact ⟨_, rfl, .number rfl⟩
  last := rfl
  distinct := List.nodup_iff_pairwise_ne.mpr (by decide)

def candidate : Candidate := .object dependentCount.layout

def value (n : Value) (tracks : List Value) : Value := .record [("title", .text "a"), ("n", n), ("tracks", .list tracks)]

end Playlist

/-- Of two tracks one is missing, and is zero. Two tracks without a count are written, and not read. -/
theorem DependentCount.unpack_counted_playlist :
    (Registry.standard.packWith Playlist.candidate (Playlist.value (.int 2) [.int 7]) .littleEndian = .ok #[1, 97, 2, 7, 0] ∧
      Number.uint8.Stores 2 ∧
      ∃ w items, unpackCandidate Packet.context Playlist.candidate ⟨Cursor.ofBytes #[1, 97, 2, 7, 0], none⟩ =
          .ok (w, ⟨⟨#[1, 97, 2, 7, 0], 5⟩, none⟩) ∧
        w.get? "n" = some (.int 2) ∧ w.get? "tracks" = some (.list items) ∧ (items.length : Int) = 2) ∧
    Registry.standard.packWith Playlist.candidate (Playlist.value .null [.int 7, .int 9]) .littleEndian = .ok #[1, 97, 0, 7, 9] ∧
      ∃ w p, unpackCandidate Packet.context Playlist.candidate ⟨Cursor.ofBytes #[1, 97, 0, 7, 9], none⟩ =
          .ok (w, ⟨⟨#[1, 97, 0, 7, 9], p⟩, none⟩) ∧
        w.get? "n" = some (.int 0) ∧ w.get? "tracks" = some (.list []) ∧ 5 = p + 1 * 2 := by
  have counted : Registry.standard.packWith Playlist.candidate (Playlist.value (.int 2) [.int 7]) .littleEndian =
    .ok #[1, 97, 2, 7, 0] := rfl
  have uncounted : Registry.standard.packWith Playlist.candidate (Playlist.value .null [.int 7, .int 9]) .littleEndian =
    .ok #[1, 97, 0, 7, 9] := rfl
  have stores : Number.uint8.Stores 2 := ⟨rfl, by decide, by decide⟩
  exact ⟨⟨counted, stores, (unpack_counted Playlist.dependentCount rfl counted).1 2 rfl stores (by decide)⟩,
    uncounted, (unpack_counted Playlist.dependentCount rfl uncounted).2 rfl⟩

/-- A count that is null is packed as zero, in front of two tracks that are packed as well; unpacking gives no track, and stops there. -/
theorem DependentCount.pack_uncounted :
    Registry.standard.packWith Playlist.candidate (Playlist.value .null [.int 7, .int 9]) .littleEndian = .ok #[1, 97, 0, 7, 9] ∧
      ∃ u, unpackCandidate Packet.context Playlist.candidate ⟨Cursor.ofBytes #[1, 97, 0, 7, 9], none⟩ =
          .ok (u, ⟨⟨#[1, 97, 0, 7, 9], 3⟩, none⟩) ∧
        u.get? "n" = some (.int 0) ∧ u.get? "tracks" = some (.list []) := by
  have packed : Registry.standard.packWith Playlist.candidate (Playlist.value .null [.int 7, .int 9]) .littleEndian =
    .ok #[1, 97, 0, 7, 9] := rfl
  obtain ⟨u, p, hread, hcount, htracks, hsize⟩ := Playlist.dependentCount.unpack_null rfl packed rfl
  have behind : 5 = p + 1 * 2 := hsize
  obtain rfl : 3 = p := by omega
  exact ⟨packed, u, hread, hcount, htracks⟩

end WireLayout
