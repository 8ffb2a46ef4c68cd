import WireLayout.Proofs.Zeros

/-!
# What is not there is null

Null is packed as zeros, unless it is handed on without an end (`Registry.NullEnds`), and a field that the input of an object does not
have is packed as null (`packWith_null`): what runs inside an object is handed null in its place. A dependent field would see the
difference, because it looks into the input of the body for its sibling, and so would a user-defined kind. Nothing else looks there.
-/

namespace WireLayout

theorem Keyed.lookup_eq_none {α : Type} {pairs : Keyed α} {key : String} (h : key ∉ keys pairs) : pairs.lookup key = none := by
  refine List.lookup_eq_none_iff.mpr ?_
  intro pair hpair
  have hne : key ≠ pair.1 := fun heq => h (by rw [heq]; exact List.mem_map_of_mem hpair)
  simp [hne]

/-- Whether a schema looks into the input of the body around, and not only at the value that it is given. -/
def Schema.readsInput : Schema → Bool
  | depend _ _ | custom _ => true
  | _ => false

/-- One input gives a field as null, the other leaves it out: a field with a name, or the last of those without. -/
inductive Value.Omits : Value → Value → Prop where
  | field {before after : Keyed Value} {key : String} (fresh : key ∉ Keyed.keys (before ++ after)) :
      Omits (.record (before ++ (key, .null) :: after)) (.record (before ++ after))
  | item (items : List Value) : Omits (.list (items ++ [.null])) (.list items)

/-- Two inputs of one shape that are the same in every field, where null and nothing are the same. -/
structure Value.SameFields (v v' : Value) : Prop where
  shape : ∀ layout, Body.checkShape layout v' = Body.checkShape layout v
  field : ∀ key, (v'.get? key).getD .null = (v.get? key).getD .null

namespace Value.Omits

variable {v v' : Value}

/-- What is found under a key that is not there, and what is null, are the same. -/
theorem sameFields (h : v.Omits v') : v.SameFields v' := by
  cases h with
  | @field before after key fresh =>
    refine ⟨fun layout => by cases layout <;> rfl, fun k => ?_⟩
    show ((before ++ after).lookup k).getD .null = ((before ++ (key, .null) :: after).lookup k).getD .null
    by_cases hk : k = key
    · subst hk
      have hbefore : k ∉ Keyed.keys before := fun hmem => fresh (by rw [Keyed.keys_append]; exact List.mem_append_left _ hmem)
      rw [Keyed.lookup_eq_none fresh, Keyed.lookup_append_cons_of_not_mem hbefore]
      rfl
    · rw [List.lookup_append, List.lookup_append, Keyed.lookup_cons, if_neg hk]
  | item items =>
    refine ⟨fun layout => by cases layout <;> rfl, fun k => ?_⟩
    show (Position.lookup k items).getD .null = (Position.lookup k (items ++ [.null])).getD .null
    rw [Position.lookup, Position.lookup]
    cases Position.ofKey? k with
    | none => rfl
    | some i =>
      show items[i]?.getD .null = (items ++ [Value.null])[i]?.getD .null
      rw [List.getElem?_append]
      split
      · rfl
      · next hi =>
        rw [List.getElem?_eq_none (Nat.le_of_not_lt hi)]
        cases i - items.length <;> rfl

end Value.Omits

namespace Body

variable {run : Candidate → Value → Packing Unit} {v v' : Value}

/-- Fields are written from what the input has in them, or null. -/
theorem packFields_congr (same : v.SameFields v') (fields : Keyed Candidate) (scope : Scope) :
    packFields run v' fields scope = packFields run v fields scope := by
  induction fields generalizing scope with
  | nil => rfl
  | cons field rest ih =>
    obtain ⟨key, c⟩ := field
    simp only [packFields, same.field, ih]

end Body

namespace Site

variable {r : Registry} {sight : Sight} {φ ψ : Site → Prop} {site site' : Site}

theorem Runs.any (h : Runs r sight site site') : Runs r .any site site' := by
  cases h with
  | item resolved => exact .item resolved
  | field split resolved => exact .field split resolved
  | view split resolved => exact .view split resolved
  | selected _ selects resolved => exact .selected trivial selects resolved
  | linked resolved => exact .linked resolved
  | counter found resolved => exact .counter found resolved
  | inner resolved => exact .inner resolved

/-- What holds at every site inside holds at those of the same body. -/
theorem Throughout.body (h : Throughout r .any φ site) (himp : ∀ site, φ site → ψ site) (v : Value) : ThroughoutBody r v ψ site := by
  intro site' hin
  have forget : RunsHere r v ≤ Runs r .any := fun _ _ hr => hr.2.any
  exact himp site' (h site' (Relation.ReflTransGen.mono forget site site' hin))

end Site

/-! ## Two inputs of one body -/

/-- No field of the body around is looked at, and every one of them has its place. -/
def Veil.input : Veil := ⟨fun _ => True, fun _ => False⟩

theorem Veil.input_admits {site : Site} (h : site.schema.readsInput = false) : input.Admits site := by
  unfold Admits
  split
  · next hschema => simp [hschema, Schema.readsInput] at h
  · exact fun _ => id
  · trivial

theorem Schema.isCustom_of_readsInput {schema : Schema} (h : schema.readsInput = false) : schema.isCustom = false := by
  cases schema with
  | custom extension => cases h
  | _ => rfl

/-- Two runs on the same output, in a body that differs in its input. -/
def Pairing.ofInput (layout : Layout) (v : Value) : Pairing := ⟨.input, .closed, some layout, v⟩

theorem Pairing.ofInput_pairs {Γ : Context} (layout : Layout) (v v' : Value) :
    (ofInput layout v).Pairs Γ (.writing layout v) (.writing layout v') where
  body := rfl
  value := rfl
  layout := rfl
  offsets := rfl
  exited := rfl
  read _ unread := absurd trivial unread
  linked _ _ _ noted := nomatch noted

namespace Codec

open Packing

variable {Γ : Context}

/-- Where nothing looks into the input of the body around, the fields run the same, whatever that input is. -/
theorem packFields_otherInput {depth : Nat} {layout : Layout}
    (fields : ∀ before key c after schema, layout.entries = before ++ (key, c) :: after → Γ.registry.resolve c = .ok schema →
      Site.Throughout Γ.registry .any (fun site => site.schema.readsInput = false) ⟨schema, some ⟨layout, before⟩, false⟩)
    (v v' : Value) :
    Body.packFields (candidate Γ (pack Γ depth)) v layout.entries (.writing layout v') =
      Body.packFields (candidate Γ (pack Γ depth)) v layout.entries (.writing layout v) := by
  have hrun : ∀ before key c after, layout.entries = before ++ (key, c) :: after →
      Tandem Γ (.ofInput layout v) (candidate Γ (pack Γ depth) c ((v.get? key).getD .null)) := by
    intro before key c after split
    refine (Tandem.compositional Γ _).candidate ?_
    intro schema hschema
    have inside := fields before key c after schema split hschema
    have builtin := inside.mono fun _ => Schema.isCustom_of_readsInput
    exact pack_tandem depth builtin (inside.body (fun _ => Veil.input_admits) v) rfl (by rintro ⟨⟩) _
  funext s
  obtain ⟨out, scope⟩ := s
  have behind := Tandem.packFirst hrun (fun _ _ => rfl) (Pairing.ofInput_pairs layout v v') (Window.Splits.refl_closed out) scope scope
  rw [Body.packFields_eq, Body.packFields_eq]
  refine (Both.eq (Walk.both_bind behind ?_)).symm
  rintro ⟨_, medium, around⟩ ⟨_, medium', around'⟩ _ h
  obtain rfl : medium = medium' := h.splits.eq_of_same rfl
  obtain ⟨rfl, rfl⟩ := h.around
  exact .ok rfl

/-- An object does not look at its input but for its fields, where nothing inside does. -/
theorem pack_sameFields (depth : Nat) {layout : Layout} {place : Option Place} {isParsed : Bool}
    (inside : Site.Throughout Γ.registry .any (fun site => site.schema.readsInput = false) ⟨.object layout, place, isParsed⟩)
    {v v' : Value} (same : v.SameFields v') : pack Γ depth (.object layout) v' = pack Γ depth (.object layout) v := by
  cases depth with
  | zero => rfl
  | succ depth =>
    show Body.packObject (candidate Γ (pack Γ depth)) layout v' = Body.packObject (candidate Γ (pack Γ depth)) layout v
    rw [Body.packObject, Body.packObject, same.shape, Body.packFields_congr same]
    refine congrArg (_ >>= ·) (funext fun _ => ?_)
    refine packFields_otherInput ?_ v v'
    intro before key c after schema split hschema
    exact inside.of_runs (.field split hschema)

end Codec

namespace Registry

/-- Packing null ends within the limits of a registry: the candidate and all that null asks for resolve or fail, and null is handed on
through no more schemas inside one another than may run. -/
def NullEnds (r : Registry) (c : Candidate) : Prop :=
  r.Answers c ∧ ∀ schema, r.resolve c = .ok schema → (Site.top schema).EndsWithin r r.limits.depth

/-- Null is the zero value. It is packed as zero bytes, or fails for a reason that is none of a value, and it does one or the other
wherever handing it on ends: only a run that does not end within the limits is given up. And leaving a field out of the input of an
object is giving it as null. -/
theorem packWith_null (r : Registry) (c : Candidate) (options : Options)
    (takes : ∀ schema, r.resolve c = .ok schema → Site.Throughout r .any (Site.TakesNull r) (.top schema)) :
    Settles (r.NullEnds c) Bytes.IsZero (r.packWith c .null options) ∧
      ∀ layout, r.resolve c = .ok (.object layout) → ∀ v v', v.Omits v' → r.packWith c v' options = r.packWith c v options := by
  have stays : ∀ site, Site.TakesNull r site → site.schema.readsInput = false := by
    intro site hsite
    unfold Site.TakesNull at hsite
    cases hschema : site.schema <;> simp_all [Schema.readsInput]
  constructor
  · cases hc : r.resolve c with
    | error stop =>
      rw [packWith_of_resolve_error hc]
      cases stop with
      | fault fault =>
        rw [resolve_eq_fault hc]
        exact .fault (.unregistered _)
      | exhausted => exact .exhausted fun ending => ending.1 hc
    | ok schema =>
      rw [Codec.packWith_of_resolve hc]
      exact (Codec.packed_null r.limits.depth (takes schema hc)).mono fun ending => ending.2 schema hc
  · intro layout hc v v' omits
    rw [Codec.packWith_of_resolve hc, Codec.packWith_of_resolve hc, Codec.packed, Codec.packed,
      Codec.pack_sameFields r.limits.depth ((takes _ hc).mono stays) omits.sameFields]

end Registry

namespace Packet

theorem takesNull : Site.Throughout Registry.standard .any (Site.TakesNull Registry.standard) (.top schema) := by
  refine Packet.throughout trivial (fun _ => trivial) (fun _ => trivial) ?_ fun _ _ => nofun
  rintro place counter schema ⟨⟩ ⟨⟩ ⟨⟩
  exact ⟨.uint8, rfl⟩

/-- Null is handed on to the three fields, and from there to nothing. -/
theorem endsWithin : (Site.top schema).EndsWithin Registry.standard 2 := by
  have fields : ∀ key c, (key, c) ∈ layout.entries →
      c = .number .uint8 ∨ c = .link "count" (.number .uint16) ∨ c = .cstring .auto := by
    intro key c mem
    simp only [layout, Layout.entries, List.mem_cons, Prod.mk.injEq, List.not_mem_nil, or_false] at mem
    rcases mem with ⟨-, rfl⟩ | ⟨-, rfl⟩ | ⟨-, rfl⟩ <;> simp
  -- Each field is a schema, which resolves to itself.
  have ending : ∀ schema, Registry.standard.Answers (.schema schema) := by
    intro schema h
    cases h
  constructor
  · intro c asks
    cases asks with
    | field mem => rcases fields _ _ mem with rfl | rfl | rfl <;> exact ending _
  · intro inner hands
    cases hands with
    | @field _ before after key c _ _ _ split resolved =>
      have mem : (key, c) ∈ layout.entries := by
        rw [split]
        exact List.mem_append_right before List.mem_cons_self
      rcases fields key c mem with rfl | rfl | rfl
      all_goals
        cases resolved
        refine ⟨fun c asks => ?_, fun inner hands => by cases hands⟩
        cases asks
      · exact ending _
      · next found =>
        cases found
        exact ending _

/-- One word and a name. -/
def contents : Keyed Value := [("words", .list [.int 1]), ("name", .text "a")]

/-- A packet of null is a zero count, no words, and the terminator of an empty name; and its count may be left out. -/
theorem packWith_null_packet :
    Site.Throughout Registry.standard .any (Site.TakesNull Registry.standard) (.top schema) ∧
      Registry.standard.NullEnds (.schema schema) ∧
      Bytes.IsZero #[0, 0] ∧
      Registry.standard.packWith (.schema schema) .null .littleEndian = .ok #[0, 0] ∧
      Registry.standard.packWith (.schema schema) (.record contents) .littleEndian =
        Registry.standard.packWith (.schema schema) (.record (("count", .null) :: contents)) .littleEndian := by
  obtain ⟨zeros, omitting⟩ := Registry.packWith_null Registry.standard (.schema schema) .littleEndian (by rintro _ ⟨⟩; exact takesNull)
  have packed : Registry.standard.packWith (.schema schema) .null .littleEndian = .ok #[0, 0] := rfl
  have ending : Registry.standard.NullEnds (.schema schema) := by
    constructor
    · intro exhausted
      cases exhausted
    · rintro _ ⟨⟩
      exact endsWithin.mono (by decide)
  rw [packed] at zeros
  cases zeros with
  | ok h =>
    have fresh : "count" ∉ Keyed.keys ([] ++ contents) := by decide
    exact ⟨takesNull, ending, h, packed, omitting layout rfl _ _ (.field fresh)⟩

end Packet

end WireLayout
