import WireLayout.Proofs.ContextFree
import WireLayout.Proofs.NullPadding

/-!
# Arrays of fixed count

An array of fixed count writes its elements one after another, each as it is written by itself, and null for every element that is
missing (`packWith_fixedCount`). So a list that is too short is packed if null is, and null is packed by every schema that it can stand
in for. A dependent field does not take it: its sibling is missing in null (`pack_short`).
-/

namespace WireLayout

theorem Bytes.concat_append (parts rest : List Bytes) : concat (parts ++ rest) = concat parts ++ concat rest := by
  induction parts with
  | nil => exact Array.empty_append.symm
  | cons part parts ih =>
    show part ++ concat (parts ++ rest) = part ++ concat parts ++ concat rest
    rw [ih, Array.append_assoc]

namespace Elements

variable {alone : Value → Except Stop Bytes} {values : List Value} {parts : List Bytes}

theorem mapM_nulls {zero : Bytes} (h : alone .null = .ok zero) (count : Nat) :
    (List.replicate count .null).mapM alone = .ok (List.replicate count zero) := by
  induction count with
  | zero => rfl
  | succ count ih =>
    rw [List.replicate_succ, List.mapM_cons, h, ih, List.replicate_succ]
    rfl

/-- Behind elements that are written, nulls are, if one of them is. -/
theorem mapM_filled (each : values.mapM alone = .ok parts) {count : Nat} (missing : values.length < count) :
    (filled values count).mapM alone = (alone .null).map fun zero => parts ++ List.replicate (count - values.length) zero := by
  rw [filled_eq_append (Nat.le_of_lt missing), List.mapM_append, each]
  cases hnull : alone .null with
  | ok zero =>
    rw [mapM_nulls hnull]
    rfl
  | error stop =>
    obtain ⟨more, hmore⟩ := Nat.exists_eq_succ_of_ne_zero (Nat.sub_ne_zero_of_lt missing)
    rw [hmore, List.replicate_succ, List.mapM_cons, hnull]
    rfl

end Elements

namespace Codec

open Packing

variable {Γ : Context} {depth : Nat} {schema : Schema}

/-- An array of fixed count is the bytes of its elements, each by itself, and of null for those that are missing. -/
theorem packed_fixedArray {item : Candidate} (resolved : Γ.registry.resolve item = .ok schema)
    (hsite : Site.Throughout Γ.registry .any (fun site => site.schema.isCustom = false ∧ site.LinksInside) (.top schema))
    (values : List Value) (n : Nat) :
    packed Γ (depth + 2) (.array item (.fixed n)) (.list values) =
      ((Elements.filled values n).mapM (packed Γ (depth + 1) schema)).map Bytes.concat := by
  have elements : pack Γ (depth + 2) (.array item (.fixed n)) (.list values) =
      Elements.pack Γ (pack Γ (depth + 1)) item values n := rfl
  have behind : ∀ v out, pack Γ (depth + 1) schema v ⟨out, none⟩ =
      (packed Γ (depth + 1) schema v).map fun bytes => ((), ⟨out ++ bytes, none⟩) := pack_behind hsite
  have each := packEach_contextFree behind (Elements.filled values n) #[]
  rw [Elements.length_filled] at each
  rw [packed, elements, Elements.pack_eq_packEach resolved, Elements.writeOne_pack, Elements.packEach_filled, each]
  cases (Elements.filled values n).mapM (packed Γ (depth + 1) schema) with
  | error stop => rfl
  | ok parts => exact congrArg Except.ok Array.empty_append

/-- By itself, null is packed where some value is. -/
theorem packed_null_of_pads (pads : schema.Pads Γ.registry) {v : Value} {bytes : Bytes} (h : packed Γ depth schema v = .ok bytes) :
    ∃ zero, packed Γ depth schema .null = .ok zero := by
  obtain ⟨scope, hrun⟩ := packed_eq_ok.mp h
  obtain ⟨_, _, zero, _, _, hnull⟩ := pack_follows depth pads v _ _ hrun
  exact ⟨#[] ++ zero, packed_eq_ok.mpr ⟨_, hnull #[] none rfl⟩⟩

/-- What a list is packed to, one level below its array: all of it where no element is missing, and otherwise what null is packed to
behind it. -/
theorem packed_fixedCount {item : Candidate} (resolved : Γ.registry.resolve item = .ok schema)
    (hsite : Site.Throughout Γ.registry .any (fun site => site.schema.isCustom = false ∧ site.LinksInside) (.top schema))
    {values : List Value} {parts : List Bytes} (each : values.mapM (packed Γ (depth + 1) schema) = .ok parts) (n : Nat) :
    (values.length = n → packed Γ (depth + 2) (.array item (.fixed n)) (.list values) = .ok (Bytes.concat parts)) ∧
      (values.length < n → packed Γ (depth + 2) (.array item (.fixed n)) (.list values) =
        (packed Γ (depth + 1) schema .null).map fun zero =>
          Bytes.concat parts ++ Bytes.concat (List.replicate (n - values.length) zero)) := by
  rw [packed_fixedArray resolved hsite]
  constructor
  · rintro rfl
    rw [Elements.filled_length, each]
    rfl
  · intro missing
    rw [Elements.mapM_filled each missing]
    cases packed Γ (depth + 1) schema .null with
    | error stop => rfl
    | ok zero => exact congrArg Except.ok (Bytes.concat_append parts _)

end Codec

namespace Registry

/-- A list is packed by an array of fixed count as what its values are packed to, and what null is packed to for each that is missing.
So nothing but null can keep a list from being packed that is too short; and null does not, if some value is packed by a schema that null
can stand in for. The array is packed one level deeper than the values are by themselves, and may reach the limit there. -/
theorem packWith_fixedCount (r : Registry) (options : Options) {item : Candidate} {schema : Schema} {values : List Value}
    {parts : List Bytes} (n : Nat) (resolved : r.resolve item = .ok schema)
    (inside : Site.Throughout r .any (fun site => site.schema.isCustom = false ∧ site.LinksInside) (.top schema))
    (each : values.mapM (fun v => r.packWith item v options) = .ok parts) :
    r.packWith (.array item (.fixed n)) (.list values) options = .error .exhausted ∨
      (values.length = n → r.packWith (.array item (.fixed n)) (.list values) options = .ok (Bytes.concat parts)) ∧
      (values.length < n → r.packWith (.array item (.fixed n)) (.list values) options =
        (r.packWith item .null options).map fun zero =>
          Bytes.concat parts ++ Bytes.concat (List.replicate (n - values.length) zero)) ∧
      (values.length ≤ n → values ≠ [] → schema.Pads r →
        ∃ padding, r.packWith (.array item (.fixed n)) (.list values) options = .ok (Bytes.concat parts ++ padding)) := by
  simp only [Codec.packWith_of_resolve resolved] at each ⊢
  rw [Candidate.array, Codec.packWith_eq_packed]
  cases hdepth : r.limits.depth with
  | zero => exact Or.inl rfl
  | succ depth =>
    rw [hdepth] at each
    rcases Codec.packed_of_le (Γ := ⟨r, options⟩) (Nat.le_succ (depth + 1)) (.array item (.fixed n)) (.list values) with limit | same
    · exact Or.inl limit
    · rw [same]
      obtain ⟨whole, short⟩ := Codec.packed_fixedCount resolved inside each n
      refine Or.inr ⟨whole, short, ?_⟩
      intro enough nonempty pads
      rcases Nat.lt_or_eq_of_le enough with missing | complete
      · obtain ⟨v, rest, rfl⟩ := List.exists_cons_of_ne_nil nonempty
        obtain ⟨bytes, hv⟩ : ∃ bytes, Codec.packed ⟨r, options⟩ (depth + 1) schema v = .ok bytes := by
          cases hv : Codec.packed ⟨r, options⟩ (depth + 1) schema v with
          | ok bytes => exact ⟨bytes, rfl⟩
          | error stop =>
            rw [List.mapM_cons, hv] at each
            cases each
        obtain ⟨zero, hnull⟩ := Codec.packed_null_of_pads pads hv
        exact ⟨_, by rw [short missing, hnull]; rfl⟩
      · exact ⟨#[], by rw [whole complete, Array.append_empty]⟩

end Registry

/-! ## Samples -/

namespace Tagged

/-- A tag and a name of two bytes. -/
def layout : Layout := .named [("tag", .number .uint8), ("name", .string (.fixed 2))]

def value : Value := .record [("tag", .int 1), ("name", .text "a")]

theorem throughout {r : Registry} {sight : Sight} {φ : Site → Prop} (object : φ (.top (.object layout)))
    (tag : ∀ place, φ ⟨.number .uint8, some place, false⟩) (name : ∀ place, φ ⟨.string (.fixed 2), some place, false⟩) :
    Site.Throughout r sight φ (.top (.object layout)) := by
  refine Site.throughout_object object ?_
  intro i key c schema hi hc
  match i with
  | 0 =>
    cases hi
    cases hc
    exact Site.throughout_number (tag _)
  | 1 =>
    cases hi
    cases hc
    refine Site.throughout_intro (name _) ?_
    intro site' hr
    cases hr
  | i + 2 => cases hi

theorem pads : (Schema.object layout).Pads Registry.standard := by
  refine .object ?_
  intro key c schema hmem hc
  rcases hmem with _ | ⟨_, _ | ⟨_, ⟨⟩⟩⟩
  · cases hc
    exact .number .uint8
  · cases hc
    exact .string (.fixed 2)

/-- One record of two is packed, with zeros behind it. -/
theorem packWith_fixedCount_tagged :
    Registry.standard.resolve (.object layout) = .ok (.object layout) ∧
      Site.Throughout Registry.standard .any (fun site => site.schema.isCustom = false ∧ site.LinksInside) (.top (.object layout)) ∧
      [value].mapM (fun v => Registry.standard.packWith (.object layout) v .littleEndian) = .ok [#[1, 97, 0]] ∧
      [value].length < 2 ∧
      (Schema.object layout).Pads Registry.standard ∧
      Registry.standard.packWith (.array (.object layout) (.fixed 2)) (.list [value]) .littleEndian = .ok #[1, 97, 0, 0, 0, 0] ∧
      ∃ padding, Registry.standard.packWith (.array (.object layout) (.fixed 2)) (.list [value]) .littleEndian =
        .ok (#[1, 97, 0] ++ padding) := by
  have inside : Site.Throughout Registry.standard .any (fun site => site.schema.isCustom = false ∧ site.LinksInside)
      (.top (.object layout)) := throughout ⟨rfl, nofun⟩ (fun _ => ⟨rfl, nofun⟩) fun _ => ⟨rfl, nofun⟩
  have each : [value].mapM (fun v => Registry.standard.packWith (.object layout) v .littleEndian) = .ok [#[1, 97, 0]] := rfl
  have short : [value].length < 2 := by decide
  rcases Registry.packWith_fixedCount Registry.standard .littleEndian 2 rfl inside each with limit | ⟨_, padded, follows⟩
  · cases limit
  · exact ⟨rfl, inside, each, short, pads, padded short, follows (Nat.le_of_lt short) nofun pads⟩

end Tagged

namespace Counted

/-- A number and as many bytes as it says. -/
def layout : Layout := .named [("size", .number .uint8), ("data", .depend "size" (.application .bytes []))]

def value : Value := .record [("size", .int 1), ("data", .list [.int 7])]

end Counted

/-- A record that is packed by itself, and is not where a second one is missing: in null the dependent field finds no number. With the
fields of null written out, it does. -/
theorem pack_short :
    Registry.standard.pack (.object Counted.layout) Counted.value = .ok #[1, 7] ∧
      Registry.standard.pack (.array (.object Counted.layout) (.fixed 2)) (.list [Counted.value]) =
        .error (.fault (.undefinedDependency "size")) ∧
      Registry.standard.pack (.array (.object Counted.layout) (.fixed 2))
        (.list [Counted.value, .record [("size", .null), ("data", .null)]]) = .ok #[1, 7, 0] :=
  ⟨rfl, rfl, rfl⟩

end WireLayout
