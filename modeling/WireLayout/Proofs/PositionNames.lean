import WireLayout.Proofs.Merging
import WireLayout.Proofs.Stretch

/-!
# Positions as names

A layout without names does the same as the one whose fields are named by their positions (`positional_eq_named`): it writes a list as the
other one writes the record of its items, and reads a list where the other one reads this record. Every view of a field has a lookup of
its own, by number or by text: the value, the layout, the places. They agree for keys that spell a position as `Position.key` does, so no
field of the layout may be named by others in its own body. A list may be longer or shorter than the layout.
-/

namespace WireLayout

namespace Position

variable {α : Type}

/-- Items under the keys of their positions, counted from `start`. -/
def keyed (start : Nat) : List α → Keyed α
  | [] => []
  | item :: rest => (key start, item) :: keyed (start + 1) rest

/-- A name that spells a position without sign or leading zeros. -/
def Canonical (name : String) : Prop := ∃ i, name = key i

theorem digits_key (i : Nat) : Nat.ofDigitChars 10 (key i).toList 0 = i := by
  have text : (key i).toList = Nat.toDigits 10 i := Nat.toList_repr
  rw [text, Nat.ofDigitChars_toDigits (by decide) (by decide)]

theorem key_injective : Function.Injective key := by
  intro i j h
  rw [← digits_key i, h, digits_key]

/-- What does not fit a word is no position. -/
theorem ofKey?_key_of_le {i : Nat} (h : wordBound ≤ i) : ofKey? (key i) = none := by
  have text : (key i).toList = Nat.toDigits 10 i := Nat.toList_repr
  unfold ofKey?
  split
  · next digits plus =>
    have sign : '+' ∈ Nat.toDigits 10 i := by rw [← text, plus]; exact List.mem_cons_self
    exact absurd (Nat.isDigit_of_mem_toDigits (by decide) (by decide) sign) (by decide)
  · rw [text, ofDigits?, Nat.ofDigitChars_toDigits (by decide) (by decide)]
    exact if_neg fun word => Nat.not_lt.mpr h word.2.2

theorem lookup_keyed (start i : Nat) (items : List α) : (keyed start items).lookup (key (start + i)) = items[i]? := by
  induction items generalizing start i with
  | nil => rfl
  | cons item rest ih =>
    rw [keyed, Keyed.lookup_cons]
    cases i with
    | zero => exact if_pos rfl
    | succ i =>
      have other : ¬key (start + (i + 1)) = key start := fun h => by
        have := key_injective h
        omega
      have next : start + (i + 1) = start + 1 + i := by omega
      rw [if_neg other, next, ih (start + 1) i]
      rfl

theorem mem_keys_keyed {start : Nat} {items : List α} {name : String} (h : name ∈ Keyed.keys (keyed start items)) :
    ∃ i, start ≤ i ∧ name = key i := by
  induction items generalizing start with
  | nil => cases h
  | cons item rest ih =>
    rcases List.mem_cons.mp h with rfl | h
    · exact ⟨start, Nat.le_refl _, rfl⟩
    · obtain ⟨i, le, rfl⟩ := ih h
      exact ⟨i, Nat.le_of_succ_le le, rfl⟩

theorem nodup_keys_keyed (start : Nat) (items : List α) : (Keyed.keys (keyed start items)).Nodup := by
  induction items generalizing start with
  | nil => exact List.nodup_nil
  | cons item rest ih =>
    refine List.nodup_cons.mpr ⟨fun mem => ?_, ih (start + 1)⟩
    obtain ⟨i, le, same⟩ := mem_keys_keyed mem
    exact absurd (key_injective same) (Nat.ne_of_lt le)

theorem length_keyed (start : Nat) (items : List α) : (keyed start items).length = items.length := by
  induction items generalizing start with
  | nil => rfl
  | cons item rest ih => exact congrArg (· + 1) (ih (start + 1))

theorem zip_keys_keyed (start : Nat) {items : List α} {contents : List Value} (few : contents.length ≤ items.length) :
    (Keyed.keys (keyed start items)).zip contents = keyed start contents := by
  induction items generalizing start contents with
  | nil =>
    obtain rfl : contents = [] := List.length_eq_zero_iff.mp (Nat.le_zero.mp few)
    rfl
  | cons item rest ih =>
    cases contents with
    | nil => rfl
    | cons v contents => exact congrArg ((key start, v) :: ·) (ih (start + 1) (Nat.le_of_succ_le_succ few))

end Position

open Position

theorem Layout.positionEntries_eq_keyed (start : Nat) (items : List Candidate) : positionEntries start items = keyed start items := by
  induction items generalizing start with
  | nil => rfl
  | cons c rest ih => exact congrArg ((key start, c) :: ·) (ih (start + 1))

/-- The same fields, named by their positions. -/
def Layout.withNames (items : List Candidate) : Layout := .named (keyed 0 items)

/-- The same items, named by their positions. -/
def Value.withNames (items : List Value) : Value := .record (keyed 0 items)

/-- Under canonical names the record of items shows what the list of them does. -/
theorem Value.get?_withNames {items : List Value} (short : items.length ≤ wordBound) (name : String) (canonical : Canonical name) :
    (Value.withNames items).get? name = (Value.list items).get? name := by
  obtain ⟨i, rfl⟩ := canonical
  have found := lookup_keyed 0 i items
  rw [Nat.zero_add] at found
  show (keyed 0 items).lookup (key i) = Position.lookup (key i) items
  rw [found]
  rcases Nat.lt_or_ge i wordBound with small | large
  · rw [lookup_key small]
  · rw [List.getElem?_eq_none (Nat.le_trans short large), Position.lookup, ofKey?_key_of_le large]
    rfl

theorem Layout.valueOf_withNames {items : List Candidate} {contents : List Value} (few : contents.length ≤ items.length) :
    (Layout.withNames items).valueOf contents = .withNames contents := congrArg Value.record (zip_keys_keyed 0 few)

/-- All fields are what the two layouts have in common. -/
def Layout.positionStretch {items : List Candidate} (short : items.length ≤ wordBound) : Stretch where
  names := Canonical
  inner := .positional items
  outer := .withNames items
  lead := []
  fields := keyed 0 items
  after := []
  after' := []
  inner_wellFormed := short
  outer_wellFormed := nodup_keys_keyed 0 items
  inner_split := by rw [List.append_nil]; exact positionEntries_eq_keyed 0 items
  outer_split := (List.append_nil _).symm
  named name mem := by
    obtain ⟨i, -, rfl⟩ := mem_keys_keyed mem
    exact ⟨i, rfl⟩
  apart _ mem := nomatch mem

/-- Two readings of so many items, one into a list and the other one into the record of them, up to the same position. -/
structure SameItems (count : Nat) (a b : Value × WalkState Cursor) : Prop where
  items : ∃ values : List Value, values.length = count ∧ a.1 = .list values ∧ b.1 = .withNames values
  state : b.2 = a.2

section

variable {Γ : Context} {items : List Candidate} {values : List Value} (short : items.length ≤ wordBound)

theorem writing_withNames (values : List Value) :
    (Layout.positionStretch short).Writing (.list values) (.withNames values) (.writing (.positional items) (.list values))
      (.writing (.withNames items) (.withNames values)) :=
  ⟨rfl, rfl, rfl, rfl, rfl, fun _ _ => rfl, nofun⟩

theorem shows_withNames : (Layout.positionStretch short).Shows [] := by
  intro contents name few canonical
  have few' : contents.length ≤ items.length := by rwa [← length_keyed 0 items]
  have value : (Layout.withNames items).valueOf contents = .withNames contents := Layout.valueOf_withNames few'
  show ((Layout.withNames items).valueOf contents).get? name = (Value.list contents).get? name
  rw [value]
  exact Value.get?_withNames (Nat.le_trans few' short) name canonical

/-- Fields that are read alike give the same items. -/
theorem Body.unpackFields_withNames {readField : Candidate → Unpacking Value}
    (alike : (Layout.positionStretch short).ReadsAlike [] readField) (s : WalkState Cursor) :
    Both (SameItems items.length)
      ((unpackFields readField (Layout.positional items).entries (.reading (.positional items)) >>= fun scope => pure scope.value) s)
      ((unpackFields readField (Layout.withNames items).entries (.reading (.withNames items)) >>= fun scope => pure scope.value) s) := by
  obtain ⟨cursor, around⟩ := s
  have start : (Layout.positionStretch short).Reading [] [] (.reading (.positional items)) (.reading (.withNames items)) :=
    ⟨rfl, (Layout.withNames items).valueOf_nil.symm, rfl⟩
  have both := Stretch.unpackFields rfl alike start cursor around around
  have entries : (Layout.positional items).entries = keyed 0 items := Layout.positionEntries_eq_keyed 0 items
  rw [entries]
  refine Walk.both_bind both ?_
  rintro ⟨scope, ⟨cursor₁, _⟩⟩ ⟨scope', ⟨cursor₂, _⟩⟩ - ⟨⟨contents, length, reading⟩, rfl, rfl, rfl⟩
  have length' : contents.length = items.length := length.trans (length_keyed 0 items)
  have value : (Layout.withNames items).valueOf contents = .withNames contents := Layout.valueOf_withNames (Nat.le_of_eq length')
  exact .ok ⟨⟨contents, length', reading.value, reading.value'.trans value⟩, rfl⟩

end

namespace Codec

variable {Γ : Context} {items : List Candidate} {values : List Value}

section

variable (short : items.length ≤ wordBound) (looks : (Layout.positional items).Looks Γ.registry Canonical)

include short looks

theorem pack_withNames (few : values.length ≤ wordBound) (depth : Nat) (s : WalkState Bytes) :
    pack Γ depth (.object (.withNames items)) (.withNames values) s = pack Γ depth (.object (.positional items)) (.list values) s := by
  cases depth with
  | zero => rfl
  | succ depth =>
    have same := Stretch.packFields (Value.get?_withNames few) rfl looks depth (writing_withNames short values) s
    show Body.packFields _ _ (keyed 0 items) _ s = Body.packFields _ _ (Layout.positionEntries 0 items) _ s
    rw [Layout.positionEntries_eq_keyed]
    exact same

theorem pack_withNames_union (few : values.length ≤ wordBound) (depth size : Nat) :
    pack Γ depth (.union (.withNames items) size) (.withNames values) = pack Γ depth (.union (.positional items) size) (.list values) := by
  cases depth with
  | zero => rfl
  | succ depth =>
    have same := Stretch.overlayFields (Value.get?_withNames few) rfl looks depth (writing_withNames short values) (Bytes.zeros size)
    show (Body.overlayFields _ _ (keyed 0 items) _ _ >>= Packing.emit) =
      (Body.overlayFields _ _ (Layout.positionEntries 0 items) _ _ >>= Packing.emit)
    rw [Layout.positionEntries_eq_keyed]
    exact congrArg (· >>= Packing.emit) same

theorem unpack_withNames (depth : Nat) (s : WalkState Cursor) :
    Both (SameItems items.length) (unpack Γ depth (.object (.positional items)) s) (unpack Γ depth (.object (.withNames items)) s) := by
  cases depth with
  | zero => exact .stop _
  | succ depth => exact Body.unpackFields_withNames short (Stretch.readsAlike (shows_withNames short) looks depth) s

theorem unpack_withNames_union (depth size : Nat) (s : WalkState Cursor) :
    Both (SameItems items.length) (unpack Γ depth (.union (.positional items) size) s)
      (unpack Γ depth (.union (.withNames items) size) s) := by
  cases depth with
  | zero => exact .stop _
  | succ depth =>
    have alike := Stretch.readsAlike (shows_withNames short) looks depth
    refine Walk.both_bind (R := Eq) (Both.of_eq rfl) ?_
    rintro ⟨window, s₁⟩ _ - rfl
    exact Body.unpackFields_withNames short (alike.window (Cursor.ofBytes window)) s₁

end

/-- An object or a union without names does the same as the one whose fields are named by their positions, as long as every dependent
field and linked array in its own body names a position by its canonical key, and no kind defined by the user runs there. A list is packed
as the record of its items is, to the same bytes or for the same fault, be it shorter or longer than the layout. From any input the two
read the same items up to the same position, or fail for the same reason. This is what merging makes of such an object. All lengths are
those that a word can count. -/
theorem positional_eq_named (short : items.length ≤ wordBound) (looks : (Layout.positional items).Looks Γ.registry Canonical)
    (depth size : Nat) :
    (∀ values : List Value, values.length ≤ wordBound → ∀ s,
        pack Γ depth (.object (.withNames items)) (.withNames values) s = pack Γ depth (.object (.positional items)) (.list values) s ∧
          pack Γ depth (.union (.withNames items) size) (.withNames values) s =
            pack Γ depth (.union (.positional items) size) (.list values) s) ∧
      (∀ s, Both (SameItems items.length) (unpack Γ depth (.object (.positional items)) s)
            (unpack Γ depth (.object (.withNames items)) s) ∧
          Both (SameItems items.length) (unpack Γ depth (.union (.positional items) size) s)
            (unpack Γ depth (.union (.withNames items) size) s)) ∧
      Γ.registry.merge [.object (.positional items)] = .ok (.object (.withNames items)) := by
  refine ⟨fun values few s => ⟨?_, ?_⟩, fun s => ⟨?_, ?_⟩, ?_⟩
  · exact pack_withNames short looks few depth s
  · rw [pack_withNames_union short looks few]
  · exact unpack_withNames short looks depth s
  · exact unpack_withNames_union short looks depth size s
  · have object : Γ.registry.Objects [.object (.positional items)] [.positional items] := .cons rfl .nil
    have distinct : (Keyed.keys ([] ++ keyed 0 items)).Nodup := nodup_keys_keyed 0 items
    have fields : [Layout.positional items].flatMap Layout.entries = keyed 0 items := by
      rw [List.flatMap_singleton]
      exact Layout.positionEntries_eq_keyed 0 items
    rw [Registry.merge_objects object, fields, Keyed.ofList, Keyed.insertAll_eq_append distinct]
    rfl

end Codec

namespace Tuple

/-- A packet without names: the count, as many words, and a text. -/
def items : List Candidate := [.number .uint8, .link "0" (.number .uint16), .cstring .auto]

/-- One item more than there are fields. -/
def values : List Value := [.int 7, .list [.int 1, .int 2], .text "a", .null]

theorem looks : (Layout.positional items).Looks Packet.context.registry Position.Canonical := by
  refine Layout.looks_of_throughout (Site.throughout_object trivial ?_)
  intro i key c schema hi hc
  match i with
  | 0 =>
    cases hi
    cases hc
    exact Site.throughout_number trivial
  | 1 =>
    cases hi
    cases hc
    refine Site.throughout_link ⟨0, rfl⟩ ?_ ?_
    · rintro _ ⟨⟩
      exact Site.throughout_number trivial
    · rintro _ _ ⟨⟩ ⟨⟩
      exact Site.throughout_number trivial
  | 2 =>
    cases hi
    cases hc
    exact Site.throughout_intro trivial fun _ hr => nomatch hr
  | i + 3 => cases hi

end Tuple

/-- The count is written over the first item, under a position as under a name. -/
theorem Codec.positional_eq_named_tuple :
    pack Packet.context 4 (.object (.withNames Tuple.items)) (.withNames Tuple.values) ⟨#[], none⟩ = .ok ((), ⟨Packet.bytes, none⟩) ∧
      unpack Packet.context 4 (.object (.withNames Tuple.items)) ⟨⟨Packet.bytes, 0⟩, none⟩ =
        .ok (.withNames [.int 2, .list [.int 1, .int 2], .text "a"], ⟨⟨Packet.bytes, 7⟩, none⟩) := by
  have short : Tuple.items.length ≤ wordBound := by decide
  have few : Tuple.values.length ≤ wordBound := by decide
  obtain ⟨packs, unpacks, -⟩ := positional_eq_named short Tuple.looks 4 0
  refine ⟨(packs Tuple.values few ⟨#[], none⟩).1.trans rfl, ?_⟩
  have read : unpack Packet.context 4 (.object (.positional Tuple.items)) ⟨⟨Packet.bytes, 0⟩, none⟩ =
      .ok (.list [.int 2, .list [.int 1, .int 2], .text "a"], ⟨⟨Packet.bytes, 7⟩, none⟩) := rfl
  have same := (unpacks ⟨⟨Packet.bytes, 0⟩, none⟩).1
  rw [read] at same
  obtain ⟨⟨v, _⟩, named, ⟨values, -, ⟨⟩, rfl⟩, rfl⟩ := same.exists_of_ok
  exact named

end WireLayout
