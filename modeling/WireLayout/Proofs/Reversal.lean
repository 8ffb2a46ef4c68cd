import WireLayout.Proofs.Appending
import WireLayout.Proofs.Padding

/-!
# Writing what was read

When reading moved from one position to another, writing the value that was read appends the bytes in between. `Reverses` says this
of a step that reads and the step that writes. Reading sees the fields read so far and writing sees the whole value, so the two
bodies around are related by what an earlier field contains (`Echoes`); for fields of integer kinds the relation also holds the
place where their bytes are in the output, because a linked array writes its count there once more.
-/

namespace WireLayout

open Packing

namespace Scope

/-- Every earlier field of an integer kind holds an integer of that kind. -/
def Typed (r : Registry) (place : Place) (u : Scope) : Prop :=
  ∀ field c kind, (field, c) ∈ place.before → r.resolve c = .ok (.number kind) → kind.isFloat = false →
    ∃ n, u.field? field = some (.int n) ∧ kind.Stores n

/-- Its bytes are in the output, at the place that was noted for it. -/
def Counted (Γ : Context) (place : Place) (out : Bytes) (u w : Scope) : Prop :=
  ∀ field c kind, (field, c) ∈ place.before → Γ.registry.resolve c = .ok (.number kind) → kind.isFloat = false →
    ∃ n offset run, u.field? field = some (.int n) ∧ kind.Stores n ∧ kind.encode Γ.options.byteOrder (.int n) = .ok run ∧
      w.fieldSchema? field = some c ∧ w.offset? field = some offset ∧
      out.extract offset (offset + kind.size) = run.toArray

end Scope

/-- Outside every body there is nothing to know; inside one, earlier fields are typed. -/
inductive Typed (r : Registry) : Option Place → Option Scope → Prop where
  | outside : Typed r none none
  | body {place : Place} {u : Scope} (typed : u.Typed r place) : Typed r (some place) (some u)

/-- The body that is read and the body that is written agree on what is read so far. -/
inductive Echoes (Γ : Context) (out : Bytes) : Option Place → Option Scope → Option Scope → Prop where
  | outside : Echoes Γ out none none none
  | body {place : Place} {u w : Scope} (sees : u.Sees w) (counted : u.Counted Γ place out w) :
      Echoes Γ out (some place) (some u) (some w)

section

variable {r : Registry} {Γ : Context} {place : Option Place} {out : Bytes} {u w : Option Scope}

theorem Typed.leaves (h : Typed r place u) (fires : Bool) : Typed r place (leaves fires u) := by
  cases h with
  | outside => exact .outside
  | body typed => exact .body typed

/-- Bytes that are in the output stay there when others are appended. -/
theorem extract_append_of_eq {offset : Nat} {run : List UInt8} (hpos : 0 < run.length)
    (h : out.extract offset (offset + run.length) = run.toArray) (bytes : Bytes) :
    (out ++ bytes).extract offset (offset + run.length) = run.toArray := by
  have hsize : (out.extract offset (offset + run.length)).size = run.length := congrArg Array.size h
  rw [Array.size_extract] at hsize
  rw [Array.extract_append, h]
  have hempty : bytes.extract (offset - out.size) (offset + run.length - out.size) = #[] := by
    rw [Array.extract_eq_empty_iff]
    omega
  rw [hempty, Array.append_empty]

theorem Scope.Counted.append {place : Place} {u w : Scope} (h : u.Counted Γ place out w) (bytes : Bytes) :
    u.Counted Γ place (out ++ bytes) w := by
  intro field c kind hmem hc hint
  obtain ⟨n, offset, run, hfield, hstores, hrun, hschema, hoffset, hbytes⟩ := h field c kind hmem hc hint
  refine ⟨n, offset, run, hfield, hstores, hrun, hschema, hoffset, ?_⟩
  rw [← Number.length_of_encode hrun] at hbytes ⊢
  exact extract_append_of_eq (by rw [Number.length_of_encode hrun]; exact kind.size_pos) hbytes bytes

theorem Echoes.append (h : Echoes Γ out place u w) (bytes : Bytes) (fires : Bool) :
    Echoes Γ (out ++ bytes) place (leaves fires u) (leaves fires w) := by
  cases h with
  | outside => exact .outside
  | body sees counted => exact .body sees (counted.append bytes)

end

/-- The count is fixed, or stands in front as an integer. -/
def Count.IsExplicit (r : Registry) : Count → Prop
  | fixed _ => True
  | prefixed number => ∀ kind, r.resolve number = .ok (.number kind) → kind.isFloat = false
  | auto => False

/-- A run that read from `p` to `q`, and the step that writes the bytes in between. -/
structure Reversed (Γ : Context) (place : Option Place) (data : Bytes) (p : Nat) (u : Option Scope) (s : WalkState Cursor)
    (write : Packing Unit) (q : Nat) (fires : Bool) : Prop where
  state : s = ⟨⟨data, q⟩, leaves fires u⟩
  forward : p ≤ q
  inside : p ≤ data.size → q ≤ data.size
  writes : ∀ out w, Echoes Γ out place u w → Appends write out w (data.extract p q) fires

/-- Whatever is read, writing it appends the bytes that were read. -/
def Reverses {α : Type} (Γ : Context) (place : Option Place) (read : Unpacking α) (write : α → Packing Unit) : Prop :=
  ∀ data p u a s, Typed Γ.registry place u → read ⟨⟨data, p⟩, u⟩ = .ok (a, s) →
    ∃ q fires, Reversed Γ place data p u s (write a) q fires

section

variable {Γ : Context} {place : Option Place} {data : Bytes} {p q m : Nat} {u : Option Scope} {s : WalkState Cursor}
  {fires fires' : Bool}

/-- One run after another reads, and writes, the bytes of both. -/
theorem Reversed.seq {s' : WalkState Cursor} {write : Packing Unit} {next : Unit → Packing Unit}
    (h : Reversed Γ place data p u s write m fires)
    (hnext : Reversed Γ place data m (leaves fires u) s' (next ()) q fires') :
    Reversed Γ place data p u s' (write >>= next) q (fires || fires') where
  state := by rw [hnext.state, leaves_leaves]
  forward := Nat.le_trans h.forward hnext.forward
  inside hp := hnext.inside (h.inside hp)
  writes out w hw := by
    have hbytes : data.extract p m ++ data.extract m q = data.extract p q := by
      rw [Array.extract_append_extract, Nat.min_eq_left h.forward, Nat.max_eq_right hnext.forward]
    rw [← hbytes]
    exact (h.writes out w hw).seq (hnext.writes _ _ (hw.append _ fires))

/-- A run that reads nothing, and a step that writes nothing. -/
theorem Reversed.nothing (place : Option Place) (data : Bytes) (p : Nat) (u : Option Scope) :
    Reversed Γ place data p u ⟨⟨data, p⟩, u⟩ (pure ()) p false where
  state := by rw [leaves_false]
  forward := Nat.le_refl p
  inside := id
  writes out w _ := by
    rw [Array.extract_empty_of_stop_le_start (Nat.le_refl p)]
    exact .nothing out w

/-! ## Numbers, regions and texts -/

/-- The bytes of an integer are those that are written for it. -/
theorem number_reversed {kind : Number} (hint : kind.isFloat = false) {v : Value}
    (h : Unpacking.number Γ kind ⟨⟨data, p⟩, u⟩ = .ok (v, s)) :
    ∃ n run, v = .int n ∧ kind.Stores n ∧ kind.encode Γ.options.byteOrder (.int n) = .ok run ∧
      run.toArray = data.extract p (p + kind.size) ∧ p + kind.size ≤ data.size ∧ s = ⟨⟨data, p + kind.size⟩, u⟩ := by
  obtain ⟨hle, heq⟩ := Elements.number_eq_ok.mp h
  cases heq
  have hpos := kind.size_pos
  have hlength : (data.extract p (p + kind.size)).toList.length = kind.size := by
    rw [Array.length_toList, Array.size_extract]
    omega
  obtain ⟨n, hdecode, hstores, hencode⟩ := Number.exists_stores_of_run hint Γ.options.byteOrder hlength
  exact ⟨n, _, hdecode, hstores, hencode, rfl, by omega, rfl⟩

theorem reversed_number {kind : Number} (hint : kind.isFloat = false) {v : Value}
    (h : Unpacking.number Γ kind ⟨⟨data, p⟩, u⟩ = .ok (v, s)) :
    Reversed Γ place data p u s (Packing.number Γ kind v) (p + kind.size) false := by
  obtain ⟨n, run, rfl, -, hencode, hrun, hin, rfl⟩ := number_reversed hint h
  refine ⟨by rw [leaves_false], Nat.le_add_right _ _, fun _ => hin, ?_⟩
  intro out w _
  rw [← hrun]
  exact .number hencode out w

/-- A count in front is an integer that its kind stores, so it is written as the same bytes. -/
theorem reversed_prefixed (place : Option Place) {c : Candidate}
    (hint : ∀ kind, Γ.registry.resolve c = .ok (.number kind) → kind.isFloat = false) {n : Nat} (h : Count.prefixed? Γ c ⟨⟨data, p⟩, u⟩ = .ok (n, s)) :
    ∃ q, Reversed Γ place data p u s (Count.pack Γ (.prefixed c) n) q false := by
  obtain ⟨kind, s₁, hkind, hread⟩ := Walk.bind_eq_ok.mp h
  obtain ⟨hc, rfl⟩ := Walk.resolveNumber_eq_ok.mp hkind
  obtain ⟨v, s₂, hv, hn⟩ := Walk.bind_eq_ok.mp hread
  obtain ⟨hcount, rfl⟩ := Count.ofValue_eq_ok.mp hn
  obtain ⟨m, run, rfl, hstores, hencode, hrun, hin, rfl⟩ := number_reversed (hint kind hc) hv
  obtain ⟨hle, hm⟩ := hstores.of_count hcount
  refine ⟨p + kind.size, by rw [leaves_false], Nat.le_add_right _ _, fun _ => hin, ?_⟩
  intro out w _
  rw [← hrun]
  rw [← hm] at hencode
  exact .count hc hle hencode out w

theorem reversed_take (Γ : Context) (place : Option Place) {n : Nat} {raw : Bytes}
    (h : Unpacking.take n ⟨⟨data, p⟩, u⟩ = .ok (raw, s)) :
    raw.size = n ∧ Reversed Γ place data p u s (Packing.emit raw) (p + n) false := by
  obtain ⟨hle, heq⟩ := Unpacking.take_eq_ok.mp h
  cases heq
  refine ⟨?_, by rw [leaves_false], Nat.le_add_right _ _, fun hp => by omega, fun out w _ => .emit _ out w⟩
  rw [Array.size_extract]
  omega

/-- A region of fixed size is written by whatever is filled up to its bytes. -/
theorem reversed_region_fixed {n : Nat} {raw bytes : Bytes}
    (h : Region.unpack Γ (.fixed n) ⟨⟨data, p⟩, u⟩ = .ok (raw, s)) (hfit : raw.size = n → bytes.fit n = raw) :
    Reversed Γ place data p u s (Region.pack Γ (.fixed n) bytes) (p + n) false := by
  rw [Region.unpack_fixed] at h
  obtain ⟨hsize, hraw⟩ := reversed_take Γ place h
  rw [Region.pack, hfit hsize]
  exact hraw

theorem reversed_region_prefixed {c : Candidate}
    (hint : ∀ kind, Γ.registry.resolve c = .ok (.number kind) → kind.isFloat = false) {raw : Bytes}
    (h : Region.unpack Γ (.prefixed c) ⟨⟨data, p⟩, u⟩ = .ok (raw, s)) :
    ∃ q, Reversed Γ place data p u s (Region.pack Γ (.prefixed c) raw) q false := by
  rw [Region.unpack_prefixed] at h
  obtain ⟨n, s₁, hn, htake⟩ := Walk.bind_eq_ok.mp h
  obtain ⟨m, hcount⟩ := reversed_prefixed place hint hn
  rw [hcount.state] at htake
  obtain ⟨hsize, hraw⟩ := reversed_take Γ place htake
  rw [← hsize] at hcount hraw
  exact ⟨m + raw.size, hcount.seq hraw⟩

/-- A text is encoded to the bytes from which it was decoded, and filled up with the zeros that were dropped. -/
theorem reversed_text {size : Count} (hsize : size.IsExplicit Γ.registry) {v : Value}
    (h : Text.unpack Γ size ⟨⟨data, p⟩, u⟩ = .ok (v, s)) : ∃ q, Reversed Γ place data p u s (Text.pack Γ size v) q false := by
  obtain ⟨raw, s₁, hraw, hdecode⟩ := Walk.bind_eq_ok.mp h
  obtain ⟨text, s₂, hchars, hv⟩ := Walk.bind_eq_ok.mp hdecode
  obtain ⟨htext, rfl⟩ := Unpacking.decode_eq_ok.mp hchars
  cases hv
  rw [Text.pack_eq (Encoding.encode?_decode? htext)]
  cases size with
  | fixed n =>
    refine ⟨p + n, reversed_region_fixed hraw ?_⟩
    intro hn
    rw [← hn]
    exact Text.fit_dropPadding raw
  | prefixed c => exact reversed_region_prefixed hsize hraw
  | auto => exact absurd hsize id

/-- The bytes of a terminated text, and the terminator behind them. -/
theorem reversed_terminatedText {v : Value} (h : Text.unpackTerminated Γ .auto ⟨⟨data, p⟩, u⟩ = .ok (v, s)) :
    ∃ q, Reversed Γ place data p u s (Text.packTerminated Γ .auto v) q false := by
  obtain ⟨raw, s₁, hraw, hdecode⟩ := Walk.bind_eq_ok.mp h
  obtain ⟨text, s₂, hchars, hv⟩ := Walk.bind_eq_ok.mp hdecode
  obtain ⟨htext, rfl⟩ := Unpacking.decode_eq_ok.mp hchars
  cases hv
  rw [Text.packTerminated_eq (Encoding.encode?_decode? htext)]
  rcases Text.terminator_cases data p with ⟨stop, hle, hlt, hstop, hbefore⟩ | hnone
  · rw [Text.terminated_apply_some hle hstop hbefore] at hraw
    cases hraw
    refine ⟨stop + 1, by rw [leaves_false], Nat.le_succ_of_le hle, fun _ => hlt, ?_⟩
    intro out w _
    have hbytes : (data.extract p stop).push 0 = data.extract p (stop + 1) := by
      obtain ⟨hin, hzero⟩ := Array.getElem?_eq_some_iff.mp hstop
      rw [Array.extract_succ_right (Nat.lt_succ_of_le hle) hin, hzero]
    rw [← hbytes]
    exact .emit _ out w
  · rw [Text.terminated_apply_none hnone] at hraw
    cases hraw

/-- The name that is read for a number is written as that number, even where several names share it. -/
theorem numberOf_nameOf {names : List (String × Int64)} (hnames : (Keyed.keys names).Nodup) (n : Int64) :
    Enumeration.numberOf names (Enumeration.nameOf names (.int n)) = .ok (.int n) := by
  rw [Enumeration.nameOf]
  cases hfound : names.find? fun entry => (Value.int n).looselyEq (.int entry.2) with
  | none => rfl
  | some entry =>
    obtain ⟨name, m⟩ := entry
    obtain ⟨hsame, before, after, hsplit, -⟩ := List.find?_eq_some_iff_append.mp hfound
    have hm : n = m := eq_of_beq hsame
    have hnew : name ∉ Keyed.keys before := by
      rw [hsplit, Keyed.keys_append, List.nodup_append] at hnames
      exact fun hmem => hnames.2.2 name hmem name List.mem_cons_self rfl
    have hlookup : names.lookup name = some m := by
      rw [hsplit]
      exact Keyed.lookup_append_cons_of_not_mem hnew m
    simp only [Enumeration.numberOf, hlookup, hm]

theorem reversed_enumeration {names : List (String × Int64)} {base : Candidate} (hnames : (Keyed.keys names).Nodup)
    (hint : ∀ kind, Γ.registry.resolve base = .ok (.number kind) → kind.isFloat = false) {v : Value}
    (h : Enumeration.unpack Γ names base ⟨⟨data, p⟩, u⟩ = .ok (v, s)) :
    ∃ q, Reversed Γ place data p u s (Enumeration.pack Γ names base v) q false := by
  obtain ⟨kind, s₁, hkind, hread⟩ := Walk.bind_eq_ok.mp h
  obtain ⟨hc, rfl⟩ := Walk.resolveNumber_eq_ok.mp hkind
  obtain ⟨raw, s₂, hraw, hv⟩ := Walk.bind_eq_ok.mp hread
  cases hv
  obtain ⟨n, run, rfl, -⟩ := number_reversed (hint kind hc) hraw
  rw [Enumeration.pack_eq hc (numberOf_nameOf hnames n)]
  exact ⟨_, reversed_number (hint kind hc) hraw⟩

end

end WireLayout
