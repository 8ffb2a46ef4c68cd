import WireLayout.Proofs.Recovery
import Mathlib.Data.List.DropRight

/-!
# Texts in regions of fixed size

A text is cut to the size of its region byte by byte, as an array of bytes is, while it is read character by character. Where the region
ends between two characters, a part of the text is read: all characters in the region, but for NUL characters at the end of a padded one.
Where the region ends inside a character (`Text.Splits`), which takes more than one byte for that, what was written is no text, and
reading it fails (`unpack_fixedText`).
-/

namespace WireLayout

namespace Text

/-- The bytes of some characters, one after another. -/
def runOf (chars : List Char) : List UInt8 := chars.flatMap String.utf8EncodeChar

theorem runOf_append (chars chars' : List Char) : runOf (chars ++ chars') = runOf chars ++ runOf chars' := List.flatMap_append

theorem runOf_cons (c : Char) (chars : List Char) : runOf (c :: chars) = String.utf8EncodeChar c ++ runOf chars := List.flatMap_cons

theorem utf8Encode_eq (chars : List Char) : chars.utf8Encode = (runOf chars).toByteArray := rfl

/-- Characters whose bytes come first in a text come first in it. -/
theorem isPrefix_of_runOf {chars chars' : List Char} {more : List UInt8} (h : runOf chars ++ more = runOf chars') :
    chars <+: chars' := by
  refine List.isPrefix_of_utf8Encode_append_eq_utf8Encode more.toByteArray ?_
  rw [utf8Encode_eq, utf8Encode_eq, ← List.toByteArray_append, h]

theorem length_runOf_le {chars chars' : List Char} (h : chars <+: chars') : (runOf chars).length ≤ (runOf chars').length := by
  obtain ⟨more, rfl⟩ := h
  rw [runOf_append, List.length_append]
  omega

/-! ## Where a region ends -/

/-- So many bytes end inside a character. -/
def Splits (chars : List Char) (n : Nat) : Prop :=
  ∃ before c after, chars = before ++ c :: after ∧ (runOf before).length < n ∧ n < (runOf before).length + c.utf8Size

variable {chars : List Char} {n : Nat}

theorem not_splits_of_le (h : (runOf chars).length ≤ n) : ¬Splits chars n := by
  rintro ⟨before, c, after, rfl, -, inside⟩
  rw [runOf_append, runOf_cons, List.length_append, List.length_append, String.length_utf8EncodeChar] at h
  omega

/-- Bytes below 128 are characters by themselves. -/
theorem not_splits_of_ascii (h : ∀ b ∈ runOf chars, b < 128) : ¬Splits chars n := by
  rintro ⟨before, c, after, rfl, start, inside⟩
  have single : c.utf8Size = 1 := by
    refine Decidable.byContradiction fun long => ?_
    obtain ⟨b, rest, hbytes⟩ := List.exists_cons_of_ne_nil (String.utf8EncodeChar_ne_nil (c := c))
    have hb : b ∈ String.utf8EncodeChar c := hbytes ▸ List.mem_cons_self
    have small := h b (by rw [runOf_append, runOf_cons]; exact List.mem_append_right _ (List.mem_append_left _ hb))
    exact absurd (Encoding.high_of_mem long hb) (UInt8.not_le.mpr small)
  omega

/-- What does not end inside a character is made of whole characters. -/
theorem exists_runOf_eq_take (whole : ¬Splits chars n) : ∃ front, front <+: chars ∧ runOf front = (runOf chars).take n := by
  induction chars generalizing n with
  | nil => exact ⟨[], List.prefix_rfl, by rw [runOf, List.flatMap_nil, List.take_nil]⟩
  | cons c rest ih =>
    have hsize := String.length_utf8EncodeChar c
    rcases Nat.eq_zero_or_pos n with rfl | start
    · exact ⟨[], List.nil_prefix, rfl⟩
    · have fits : c.utf8Size ≤ n := by
        refine Nat.le_of_not_lt fun inside => whole ⟨[], c, rest, rfl, start, ?_⟩
        rw [runOf, List.flatMap_nil, List.length_nil, Nat.zero_add]
        exact inside
      obtain ⟨k, rfl⟩ := Nat.exists_eq_add_of_le fits
      have hrest : ¬Splits rest k := by
        rintro ⟨before, c', after, rfl, start', inside⟩
        refine whole ⟨c :: before, c', after, rfl, ?_, ?_⟩ <;> rw [runOf_cons, List.length_append, hsize] <;> omega
      obtain ⟨front, hfront, hrun⟩ := ih hrest
      refine ⟨c :: front, List.prefix_cons_inj c |>.mpr hfront, ?_⟩
      rw [runOf_cons, runOf_cons, hrun, ← hsize, List.take_length_add_append]

/-- What ends inside a character is not made of whole characters. -/
theorem runOf_ne_take (splits : Splits chars n) (front : List Char) : runOf front ≠ (runOf chars).take n := by
  intro same
  obtain ⟨before, c, after, rfl, start, inside⟩ := splits
  have whole : runOf front ++ (runOf (before ++ c :: after)).drop n = runOf (before ++ c :: after) := by
    rw [same, List.take_append_drop]
  have hfront := isPrefix_of_runOf whole
  have hlength : (runOf front).length = n := by
    rw [same, List.length_take, runOf_append, runOf_cons, List.length_append, List.length_append, String.length_utf8EncodeChar]
    omega
  have hc : before ++ [c] <+: before ++ c :: after := ⟨after, by rw [List.append_assoc]; rfl⟩
  rcases List.prefix_or_prefix_of_prefix hfront hc with short | long
  · rcases List.prefix_concat_iff.mp short with rfl | short
    · rw [runOf_append, List.length_append, runOf_cons, List.length_append, String.length_utf8EncodeChar] at hlength
      omega
    · have hle := length_runOf_le short
      omega
  · have hle := length_runOf_le long
    rw [runOf_append, List.length_append, runOf_cons, List.length_append, String.length_utf8EncodeChar] at hle
    omega

end Text

/-! ## What is decoded -/

namespace Encoding

variable {encoding : Encoding}

theorem admits_of_encode? {text : String} {bytes : Bytes} (h : encoding.encode? text = some bytes) : encoding.admits bytes = true := by
  unfold encode? at h
  split at h
  · next hadmits =>
    cases h
    exact hadmits
  · cases h

theorem admits_of_subset {bytes bytes' : Bytes} (h : encoding.admits bytes = true) (sub : ∀ b ∈ bytes', b ∈ bytes) :
    encoding.admits bytes' = true := by
  cases encoding with
  | utf8 => rfl
  | ascii => exact Array.all_eq_true_iff_forall_mem.mpr fun b hb => Array.all_eq_true_iff_forall_mem.mp h b (sub b hb)

/-- The bytes of characters are decoded to them. -/
theorem decode?_runOf {chars : List Char} (h : encoding.admits (Text.runOf chars).toArray = true) :
    encoding.decode? (Text.runOf chars).toArray = some (String.ofList chars) := by
  have bytes : (String.ofList chars).toUTF8.data = (Text.runOf chars).toArray := by
    rw [String.toUTF8, String.toByteArray_ofList, Text.utf8Encode_eq, List.data_toByteArray]
  refine decode?_encode? ?_
  rw [encode?, bytes, if_pos h]

end Encoding

namespace Text

variable {chars : List Char} {n : Nat}

theorem dropPadding_toArray (run : List UInt8) : dropPadding run.toArray = (run.rdropWhile (· == 0)).toArray := List.popWhile_toArray ..

/-- The zeros at the end of a text are its NUL characters there. -/
theorem dropPadding_runOf (chars : List Char) : dropPadding (runOf chars).toArray = (runOf (chars.rdropWhile (· == '\x00'))).toArray := by
  rw [dropPadding_toArray]
  induction chars using List.reverseRecOn with
  | nil => rfl
  | append_singleton init c ih =>
    rw [runOf_append]
    by_cases nul : c = '\x00'
    · subst nul
      have zero : runOf ['\x00'] = [0] := rfl
      rw [zero, List.rdropWhile_concat_pos _ _ _ rfl, List.rdropWhile_concat_pos _ _ _ rfl, ih]
    · obtain ⟨front, b, hbytes⟩ := (List.eq_nil_or_concat (runOf [c])).resolve_left (by simp [runOf])
      have nonzero : b ≠ 0 := by
        rintro rfl
        refine nul (Encoding.eq_nul_of_zero_mem ?_)
        have hrun : runOf [c] = String.utf8EncodeChar c := List.flatMap_singleton ..
        rw [← hrun, hbytes, List.concat_eq_append]
        exact List.mem_concat_self
      rw [List.rdropWhile_concat_neg _ _ _ (by simpa using nul), runOf_append, hbytes, List.concat_eq_append, ← List.append_assoc,
        List.rdropWhile_concat_neg _ _ _ (by simpa using nonzero)]

/-- Behind the padding of a region its content is as if it had been cut only. -/
theorem dropPadding_fit_eq (content : Bytes) (n : Nat) : dropPadding (content.fit n) = dropPadding (content.extract 0 n) := by
  rw [Bytes.fit, dropPadding, Array.popWhile_append_of_pos]
  · rfl
  · intro b hb
    rw [Bytes.zeros, Array.mem_replicate] at hb
    rw [hb.2]
    rfl

/-- A terminator that does not fit leaves no trace. -/
theorem fit_push {content : Bytes} {n : Nat} (h : n ≤ content.size) (b : UInt8) : Bytes.fit (content.push b) n = content.extract 0 n := by
  have full : n - (content.push b).size = 0 := by
    rw [Array.size_push]
    omega
  have outside : n - content.size = 0 := by omega
  rw [Bytes.fit, full, Bytes.zeros, Array.replicate_zero, Array.append_empty, ← Array.append_singleton, Array.extract_append, outside]
  simp

theorem not_mem_extract {content : Bytes} {b : UInt8} (h : b ∉ content) (n : Nat) : b ∉ content.extract 0 n := by
  intro hmem
  obtain ⟨i, _, hi⟩ := Array.mem_extract_iff_getElem.mp hmem
  exact h (hi ▸ Array.getElem_mem _)

/-- So it is before the terminator, where the text has no zero byte. -/
theorem beforeTerminator_fit_eq {content : Bytes} (hnul : 0 ∉ content) (n : Nat) :
    beforeTerminator (Bytes.fit (content.push 0) n) = content.extract 0 n := by
  rcases Nat.le_total n content.size with short | long
  · have whole := beforeTerminator_fit_push (Nat.le_refl _) (not_mem_extract hnul n)
    rw [fit_push (Nat.le_refl _), Array.extract_size] at whole
    rw [fit_push short, whole]
  · rw [beforeTerminator_fit_push long hnul, Array.extract_eq_self_iff.mpr (by omega)]

theorem runOf_replicate_nul (k : Nat) : runOf (List.replicate k '\x00') = List.replicate k 0 := by
  induction k with
  | zero => rfl
  | succ k ih =>
    rw [List.replicate_succ, List.replicate_succ, runOf_cons, ih]
    rfl

/-- No characters but none have no bytes. -/
theorem eq_of_runOf_eq {chars chars' : List Char} (h : chars <+: chars') (same : runOf chars = runOf chars') : chars = chars' := by
  obtain ⟨more, rfl⟩ := h
  cases more with
  | nil => rw [List.append_nil]
  | cons c more =>
    rw [runOf_append, runOf_cons] at same
    have empty := List.append_eq_nil_iff.mp (List.append_right_eq_self.mp same.symm)
    exact absurd empty.1 String.utf8EncodeChar_ne_nil

theorem extract_eq_take {encoding : Encoding} {text : String} {bytes : Bytes} (accepted : encoding.encode? text = some bytes) (n : Nat) :
    bytes.extract 0 n = ((runOf text.toList).take n).toArray := by
  have hbytes : bytes = (runOf text.toList).toArray := Encoding.encode?_eq accepted
  rw [hbytes]
  simp

/-- What is left of a text that is cut inside a character is no text. -/
theorem decode?_cut_inside {encoding : Encoding} {text : String} {bytes : Bytes} (accepted : encoding.encode? text = some bytes) {n : Nat}
    (splits : Splits text.toList n) : encoding.decode? (dropPadding (bytes.extract 0 n)) = none := by
  cases decoded : encoding.decode? (dropPadding (bytes.extract 0 n)) with
  | none => rfl
  | some s =>
    obtain ⟨k, hpadding⟩ := dropPadding_append_zeros (bytes.extract 0 n)
    have hs : dropPadding (bytes.extract 0 n) = (runOf s.toList).toArray := Encoding.encode?_eq (Encoding.encode?_decode? decoded)
    rw [hs, extract_eq_take accepted] at hpadding
    have hrun := congrArg Array.toList hpadding
    -- The zeros that were dropped are NUL characters, so the cut text itself would be made of whole characters.
    rw [Array.toList_append, Bytes.zeros, Array.toList_replicate, ← runOf_replicate_nul, ← runOf_append] at hrun
    exact absurd hrun (runOf_ne_take splits _)

/-- What is left of a text that is cut between two characters is a text that the cut one starts with; nothing is missing when the cut is
behind the whole text, and that does not end in NUL. -/
theorem decode?_cut_between {encoding : Encoding} {text : String} {bytes : Bytes} (accepted : encoding.encode? text = some bytes) {n : Nat}
    (whole : ¬Splits text.toList n) :
    ∃ front : String, encoding.decode? (dropPadding (bytes.extract 0 n)) = some front ∧ front.toList <+: text.toList ∧
      (bytes.size ≤ n → text.toList.getLast? ≠ some '\x00' → front = text) := by
  have hbytes : bytes = (runOf text.toList).toArray := Encoding.encode?_eq accepted
  obtain ⟨front, hfront, hrun⟩ := exists_runOf_eq_take whole
  have hkept : dropPadding (bytes.extract 0 n) = (runOf (front.rdropWhile (· == '\x00'))).toArray := by
    rw [extract_eq_take accepted, ← hrun, dropPadding_runOf]
  have hprefix : front.rdropWhile (· == '\x00') <+: text.toList := (List.rdropWhile_prefix _ front).trans hfront
  refine ⟨String.ofList (front.rdropWhile (· == '\x00')), ?_, ?_, ?_⟩
  · rw [hkept]
    refine Encoding.decode?_runOf (Encoding.admits_of_subset (Encoding.admits_of_encode? accepted) fun b hb => ?_)
    rw [hbytes]
    obtain ⟨more, hmore⟩ := hprefix
    rw [← hmore, runOf_append]
    simp only [List.mem_toArray] at hb ⊢
    exact List.mem_append_left _ hb
  · rw [String.toList_ofList]
    exact hprefix
  · intro long last
    have all : (runOf text.toList).take n = runOf text.toList := by
      rw [hbytes, List.size_toArray] at long
      exact List.take_of_length_le long
    obtain rfl := eq_of_runOf_eq hfront (hrun.trans all)
    have kept : text.toList.rdropWhile (· == '\x00') = text.toList := by
      refine List.rdropWhile_eq_self_iff.mpr fun hne hnul => last ?_
      rw [List.getLast?_eq_some_getLast hne, eq_of_beq hnul]
    rw [kept, String.ofList_toList]

/-! ## What is read -/

/-- A schema that stores a text in a region of fixed size; a terminated text has no NUL character. -/
inductive Fixed (text : String) (n : Nat) : Schema → Prop where
  | padded : Fixed text n (.string (.fixed n))
  | terminated (free : '\x00' ∉ text.toList) : Fixed text n (.cstring (.fixed n))

/-- Both kinds of text are stored as a region, and read by decoding what is left of it. -/
theorem Fixed.stored {Γ : Context} {text : String} {bytes : Bytes} (accepted : Γ.options.encoding.encode? text = some bytes) {n : Nat}
    {schema : Schema} (fixed : Fixed text n schema) (depth : Nat) :
    ∃ (content : Bytes) (keep : Bytes → Bytes), Codec.pack Γ (depth + 1) schema (.text text) = Region.pack Γ (.fixed n) content ∧
      (Codec.unpack Γ (depth + 1) schema =
        Region.unpack Γ (.fixed n) >>= fun raw => Unpacking.decode Γ (keep raw) >>= fun s => pure (.text s)) ∧
      keep (content.fit n) = dropPadding (bytes.extract 0 n) := by
  cases fixed with
  | padded => exact ⟨bytes, dropPadding, pack_eq accepted _, rfl, dropPadding_fit_eq bytes n⟩
  | terminated free =>
    have hnul : 0 ∉ bytes := fun hzero => free (Encoding.nul_of_zero_mem accepted hzero)
    have sized : Count.fixed n ≠ .auto := nofun
    refine ⟨bytes.push 0, beforeTerminator, packTerminated_eq accepted _, unpackTerminated_region sized, ?_⟩
    -- Without zero bytes there is no padding to drop.
    have last : (bytes.extract 0 n).back? ≠ some 0 := fun hzero => not_mem_extract hnul n (Array.mem_of_back? hzero)
    have kept := dropPadding_fit (Nat.le_refl _) last
    rw [Bytes.fit_size] at kept
    rw [beforeTerminator_fit_eq hnul, kept]

end Text

namespace Codec

/-- A text of any length in a region of fixed size, by an encoding that accepts it. The region is written, and where it does not end
inside a character it is read as a part of the text from its start: as the whole text, if that fits and does not end in NUL. A region that
ends inside a character is not read at all; it is too short for the text then, which has characters that ASCII does not have. -/
theorem unpack_fixedText {Γ : Context} {text : String} {bytes : Bytes} (accepted : Γ.options.encoding.encode? text = some bytes) {n : Nat}
    {schema : Schema} (fixed : Text.Fixed text n schema) (depth : Nat) :
    ∃ region : Bytes, region.size = n ∧
      (∀ out scope, Packing.Appends (pack Γ (depth + 1) schema (.text text)) out scope region false) ∧
      (¬Text.Splits text.toList n → ∃ front : String, front.toList <+: text.toList ∧
        (bytes.size ≤ n → text.toList.getLast? ≠ some '\x00' → front = text) ∧
        ∀ data p scope, region.LiesAt data p →
          unpack Γ (depth + 1) schema ⟨⟨data, p⟩, scope⟩ = .ok (.text front, ⟨⟨data, p + n⟩, scope⟩)) ∧
      (Text.Splits text.toList n → ∀ data p scope, region.LiesAt data p →
        unpack Γ (depth + 1) schema ⟨⟨data, p⟩, scope⟩ = .error (.fault (.invalidEncoding Γ.options.encoding))) ∧
      (bytes.size ≤ n ∨ Γ.options.encoding = .ascii → ¬Text.Splits text.toList n) := by
  obtain ⟨content, keep, hpack, hunpack, hkeep⟩ := fixed.stored accepted depth
  have region := roundTrips_region_fixed Γ none content n
  have reads : ∀ data p scope, (content.fit n).LiesAt data p → unpack Γ (depth + 1) schema ⟨⟨data, p⟩, scope⟩ =
      (Unpacking.decode Γ (Text.dropPadding (bytes.extract 0 n)) >>= fun s => pure (.text s)) ⟨⟨data, p + n⟩, scope⟩ := by
    intro data p scope hlies
    have hread := region.reads data p scope (.none scope) hlies
    rw [leaves_false, Bytes.size_fit] at hread
    rw [hunpack, Walk.bind_apply, hread]
    dsimp only
    rw [hkeep]
  refine ⟨content.fit n, Bytes.size_fit _ _, ?_, ?_, ?_, ?_⟩
  · rw [hpack]
    exact fun out scope => region.writes out scope (.none scope)
  · intro unbroken
    obtain ⟨front, hdecode, hprefix, hwhole⟩ := Text.decode?_cut_between accepted unbroken
    refine ⟨front, hprefix, hwhole, fun data p scope hlies => ?_⟩
    rw [reads data p scope hlies, Unpacking.decode, Encoding.decode, hdecode]
    rfl
  · intro splits data p scope hlies
    rw [reads data p scope hlies, Unpacking.decode, Encoding.decode, Text.decode?_cut_inside accepted splits]
    rfl
  · have hbytes : bytes = (Text.runOf text.toList).toArray := Encoding.encode?_eq accepted
    rintro (fits | hascii)
    · refine Text.not_splits_of_le ?_
      rw [hbytes, List.size_toArray] at fits
      exact fits
    · refine Text.not_splits_of_ascii fun b hb => ?_
      have admits := Encoding.admits_of_encode? accepted
      rw [hascii, hbytes] at admits
      exact of_decide_eq_true (Array.all_eq_true_iff_forall_mem.mp admits b (List.mem_toArray.mpr hb))

/-- Two bytes hold one character and a half, and cannot be read; four bytes hold both characters and a terminator. -/
theorem unpack_fixedText_accent :
    Packet.context.options.encoding.encode? "aé" = some #[0x61, 0xC3, 0xA9] ∧
      (∃ region : Bytes, region.size = 2 ∧
        Packing.Appends (pack Packet.context 1 (.string (.fixed 2)) (.text "aé")) #[] none region false ∧
          unpack Packet.context 1 (.string (.fixed 2)) ⟨⟨region, 0⟩, none⟩ = .error (.fault (.invalidEncoding .utf8))) ∧
      ∃ region : Bytes, region.size = 4 ∧
        Packing.Appends (pack Packet.context 1 (.cstring (.fixed 4)) (.text "aé")) #[] none region false ∧
          unpack Packet.context 1 (.cstring (.fixed 4)) ⟨⟨region, 0⟩, none⟩ = .ok (.text "aé", ⟨⟨region, 4⟩, none⟩) := by
  have accepted : Packet.context.options.encoding.encode? "aé" = some #[0x61, 0xC3, 0xA9] := rfl
  refine ⟨accepted, ?_, ?_⟩
  · obtain ⟨region, hsize, writes, -, broken, -⟩ := unpack_fixedText accepted (n := 2) .padded 0
    have splits : Text.Splits "aé".toList 2 := ⟨['a'], 'é', [], by decide, by decide, by decide⟩
    exact ⟨region, hsize, writes #[] none, broken splits region 0 none (.self region)⟩
  · obtain ⟨region, hsize, writes, whole, -, unbroken⟩ := unpack_fixedText accepted (n := 4) (.terminated (by decide)) 0
    obtain ⟨front, -, all, reads⟩ := whole (unbroken (Or.inl (by decide)))
    have hread := reads region 0 none (.self region)
    rw [all (by decide) (by decide)] at hread
    exact ⟨region, hsize, writes #[] none, hread⟩

/-- The first byte of a character is written, and is no text. -/
theorem pack_breaks_character :
    Registry.standard.pack (.string (.fixed 1)) (.text "é") = .ok #[0xC3] ∧
      Registry.standard.unpack (.string (.fixed 1)) #[0xC3] = .error (.fault (.invalidEncoding .utf8)) := by
  have accepted : Encoding.utf8.encode? "é" = some #[0xC3, 0xA9] := rfl
  have splits : Text.Splits "é".toList 1 := ⟨[], 'é', [], by decide, by decide, by decide⟩
  have broken : Encoding.utf8.decode? (Text.dropPadding #[0xC3]) = none := Text.decode?_cut_inside accepted splits
  have failed : Encoding.utf8.decode (Text.dropPadding #[0xC3]) = .error (.invalidEncoding .utf8) := by
    rw [Encoding.decode, broken]
  refine ⟨rfl, ?_⟩
  show (Walk.ofExcept (Encoding.utf8.decode (Text.dropPadding #[0xC3])) >>= fun s => pure (.text s)) ⟨⟨#[0xC3], 1⟩, none⟩ >>=
    (fun r : Value × WalkState Cursor => .ok r.1) = _
  rw [failed]
  rfl

end Codec

end WireLayout
