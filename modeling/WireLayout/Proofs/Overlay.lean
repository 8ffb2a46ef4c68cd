import WireLayout.Proofs.UnionExit

/-!
# What is on top in a union

The fields that a value has are written one over another into a region of zeros, each from its start. A field that is shorter than
an earlier one leaves the end of that one in sight, and what does not fit into the region is dropped. So a byte of the region is that
of the last field that reaches so far, and zero where none does (`pack_union_topmost`).
-/

namespace WireLayout

open Codec

theorem Bytes.getElem?_overwrite (target : Bytes) (offset : Nat) (content : List UInt8) (i : Nat) :
    (target.overwrite offset content)[i]? =
      if offset ≤ i ∧ i < target.size ∧ i < offset + content.length then content[i - offset]? else target[i]? := by
  induction content generalizing target offset with
  | nil =>
    have none_left : ¬(offset ≤ i ∧ i < target.size ∧ i < offset + 0) := by omega
    rw [Bytes.overwrite, List.length_nil, if_neg none_left]
  | cons b rest ih =>
    rw [Bytes.overwrite, ih, Array.size_setIfInBounds, List.length_cons, Array.getElem?_setIfInBounds]
    by_cases first : offset = i
    · subst first
      have behind : ¬(offset + 1 ≤ offset ∧ offset < target.size ∧ offset < offset + 1 + rest.length) := by omega
      rw [if_neg behind, if_pos rfl, Nat.sub_self, List.getElem?_cons_zero]
      by_cases inside : offset < target.size
      · rw [if_pos inside, if_pos ⟨Nat.le_refl _, inside, by omega⟩]
      · rw [if_neg inside, if_neg fun h => inside h.2.1, Array.getElem?_eq_none (by omega)]
    · rw [if_neg first]
      by_cases later : offset + 1 ≤ i ∧ i < target.size ∧ i < offset + 1 + rest.length
      · have next : i - offset = i - (offset + 1) + 1 := by omega
        rw [if_pos later, if_pos (by omega), next, List.getElem?_cons_succ]
      · rw [if_neg later, if_neg (by omega)]

namespace Body

variable {run : Candidate → Value → Packing Unit} {v : Value} {scope : Scope}

@[simp]
theorem size_overlay (region content : Bytes) : (overlay region content).size = region.size := Bytes.size_overwrite ..

/-- Where the upper one ends the lower one is seen. -/
theorem getElem?_overlay {region : Bytes} {i : Nat} (inside : i < region.size) (content : Bytes) :
    (overlay region content)[i]? = content[i]?.or region[i]? := by
  rw [overlay, Bytes.getElem?_overwrite, Array.length_toList, Nat.zero_add, Nat.sub_zero, Array.getElem?_toList]
  by_cases reached : i < content.size
  · rw [if_pos ⟨Nat.zero_le _, inside, reached⟩, Array.getElem?_eq_getElem reached, Option.some_or]
  · have ended : content[i]? = none := Array.getElem?_eq_none (Nat.le_of_not_lt reached)
    rw [if_neg fun h => reached h.2.2, ended, Option.none_or]

theorem size_foldl_overlay (layers : List Bytes) (region : Bytes) : (layers.foldl overlay region).size = region.size := by
  induction layers generalizing region with
  | nil => rfl
  | cons layer layers ih => rw [List.foldl_cons, ih, size_overlay]

theorem getElem?_foldl_overlay (layers : List Bytes) {region : Bytes} {i : Nat} (inside : i < region.size) :
    (layers.foldl overlay region)[i]? = (layers.filterMap fun layer => layer[i]?).getLast?.or region[i]? := by
  induction layers generalizing region with
  | nil => rfl
  | cons layer layers ih =>
    rw [List.foldl_cons, ih (by rwa [size_overlay]), getElem?_overlay inside]
    cases reached : layer[i]? with
    | none => rw [List.filterMap_cons, reached, Option.none_or]
    | some b =>
      rw [List.filterMap_cons, reached, List.getLast?_cons]
      cases (layers.filterMap fun layer => layer[i]?).getLast? <;> rfl

theorem size_foldl_zeros (layers : List Bytes) (size : Nat) : (layers.foldl overlay (Bytes.zeros size)).size = size := by
  rw [size_foldl_overlay, Bytes.zeros, Array.size_replicate]

/-- The byte on top at a place: that of the last layer that is longer, and zero where none is. -/
def topByte (layers : List Bytes) (i : Nat) : UInt8 := (layers.filterMap fun layer => layer[i]?).getLast?.getD 0

/-- Over zeros the layers show what is on top. -/
theorem getElem?_foldl_zeros (layers : List Bytes) {size i : Nat} (inside : i < size) :
    (layers.foldl overlay (Bytes.zeros size))[i]? = some (topByte layers i) := by
  have hsize : (Bytes.zeros size).size = size := Array.size_replicate
  have ground : (Bytes.zeros size)[i]? = some 0 := by
    rw [Bytes.zeros, Array.getElem?_replicate, if_pos inside]
  rw [getElem?_foldl_overlay layers (by rwa [hsize]), ground, topByte]
  cases (layers.filterMap fun layer => layer[i]?).getLast? <;> rfl

/-- The layers of a union: what the fields that the value has write, each to an output of its own and in the body as it was entered,
up to the first one that leaves the body. -/
inductive Overlays (run : Candidate → Value → Packing Unit) (v : Value) (scope : Scope) : Keyed Candidate → List Bytes → Prop where
  | nil : Overlays run v scope [] []
  | absent {key : String} {c : Candidate} {rest : Keyed Candidate} {layers : List Bytes} :
      v.get? key = none → Overlays run v scope rest layers → Overlays run v scope ((key, c) :: rest) layers
  | stays {key : String} {c : Candidate} {rest : Keyed Candidate} {content : Value} {layer : Bytes} {layers : List Bytes} :
      v.get? key = some content → run c content ⟨#[], some scope⟩ = .ok ((), ⟨layer, some scope⟩) →
        Overlays run v scope rest layers → Overlays run v scope ((key, c) :: rest) (layer :: layers)
  | exits {key : String} {c : Candidate} {rest : Keyed Candidate} {content : Value} {layer : Bytes} :
      v.get? key = some content → run c content ⟨#[], some scope⟩ = .ok ((), ⟨layer, some scope.exit⟩) →
        Overlays run v scope ((key, c) :: rest) [layer]

/-- One field over the region, and the others over that. -/
theorem overlayFields_present {key : String} {c : Candidate} {rest : Keyed Candidate} {content : Value} {region : Bytes}
    {s : WalkState Bytes} {r : Bytes × WalkState Bytes} (present : v.get? key = some content) (inside : scope.isExited = false)
    (h : overlayFields run v ((key, c) :: rest) scope region s = .ok r) :
    ∃ layer inner, run c content ⟨#[], some scope⟩ = .ok ((), ⟨layer, inner⟩) ∧
      overlayFields run v rest (inner.getD scope) (overlay region layer) s = .ok r := by
  rw [overlayFields, present, if_neg (by rw [inside]; exact Bool.false_ne_true)] at h
  obtain ⟨⟨layer, scope'⟩, s₁, hfield, hrest⟩ := Walk.bind_eq_ok.mp h
  obtain ⟨_, _, hcollect, ⟨⟩⟩ := Walk.within_eq_ok.mp hfield
  obtain ⟨inner, hrun, ⟨⟩⟩ := Packing.collect_eq_ok.mp hcollect
  exact ⟨inner.medium, inner.scope, hrun, hrest⟩

/-- A union whose fields are written has layers, and is the region with the layers over it. -/
theorem overlayFields_layers (hrun : ∀ c content, Walk.Leaves (run c content)) (inside : scope.isExited = false)
    {fields : Keyed Candidate} {region region' : Bytes} {s s' : WalkState Bytes}
    (h : overlayFields run v fields scope region s = .ok (region', s')) :
    ∃ layers, Overlays run v scope fields layers ∧ region' = layers.foldl overlay region ∧ s' = s := by
  induction fields generalizing region with
  | nil =>
    cases h
    exact ⟨[], .nil, rfl, rfl⟩
  | cons field rest ih =>
    obtain ⟨key, c⟩ := field
    cases present : v.get? key with
    | none =>
      rw [overlayFields, present, if_neg (by rw [inside]; exact Bool.false_ne_true)] at h
      obtain ⟨layers, hlayers, hregion, hs⟩ := ih h
      exact ⟨layers, .absent present hlayers, hregion, hs⟩
    | some content =>
      obtain ⟨layer, inner, written, hrest⟩ := overlayFields_present present inside h
      obtain ⟨fires, rfl⟩ := hrun c content _ _ _ written
      cases fires with
      | false =>
        rw [leaves_false] at written hrest
        obtain ⟨layers, hlayers, hregion, hs⟩ := ih hrest
        exact ⟨layer :: layers, .stays present written hlayers, hregion, hs⟩
      | true =>
        have left : leaves true (some scope) = some scope.exit := congrArg some scope.leave_true
        rw [left] at written hrest
        rw [Option.getD_some, overlayFields_exited rfl] at hrest
        cases hrest
        exact ⟨[layer], .exits present written, rfl, rfl⟩

/-- Writing a union appends its layers over zeros, and does nothing else. -/
theorem packUnion_layers (hrun : ∀ c content, Walk.Leaves (run c content)) {layout : Layout} {size : Nat} {s s' : WalkState Bytes}
    (packed : packUnion run layout size v s = .ok ((), s')) :
    ∃ layers, Overlays run v (.writing layout v) layout.entries layers ∧
      s' = ⟨s.medium ++ layers.foldl overlay (Bytes.zeros size), s.scope⟩ := by
  obtain ⟨-, -, h⟩ := Walk.ofExcept_bind_eq_ok.mp packed
  obtain ⟨region, s₂, hfields, hemit⟩ := Walk.bind_eq_ok.mp h
  obtain ⟨layers, hlayers, rfl, rfl⟩ := overlayFields_layers hrun rfl hfields
  cases hemit
  exact ⟨layers, hlayers, rfl⟩

end Body

open Body

/-- A union is written as exactly as many bytes as it is long, behind what is written already. Each of them is the byte on top of its
layers: of the last field with a longer packing, among those that the value has up to the first one that leaves the body. -/
theorem pack_union_topmost {Γ : Context} (depth : Nat) {layout : Layout} {size : Nat} {v : Value} {s s' : WalkState Bytes}
    (packed : pack Γ (depth + 1) (.union layout size) v s = .ok ((), s')) :
    ∃ layers region, Overlays (Packing.candidate Γ (pack Γ depth)) v (.writing layout v) layout.entries layers ∧
      s' = ⟨s.medium ++ region, s.scope⟩ ∧ region.size = size ∧ ∀ i < size, region[i]? = some (topByte layers i) := by
  have hrun : ∀ c content, Walk.Leaves (Packing.candidate Γ (pack Γ depth) c content) :=
    fun c content => .resolve fun schema => pack_leaves depth schema content
  obtain ⟨layers, hlayers, hs⟩ := packUnion_layers hrun packed
  exact ⟨layers, _, hlayers, hs, size_foldl_zeros layers size, fun i inside => getElem?_foldl_zeros layers inside⟩

namespace Layered

/-- Four bytes, one over the first of them, a field that the value does not have, and a byte behind an exit. -/
def layout : Layout :=
  .named [("wide", .number .uint32), ("low", .number .uint8), ("missing", .number .uint16), ("x", .exit), ("late", .number .uint8)]

def value : Value := .record [("late", .int 9), ("wide", .int 0x04030201), ("low", .int 7), ("x", .null)]

end Layered

/-- The first byte is the short field's, the others are what the long one shows behind it, as far as the region goes. -/
theorem pack_union_topmost_layered :
    pack Packet.context 2 (.union Layered.layout 3) Layered.value ⟨#[5], none⟩ = .ok ((), ⟨#[5, 7, 2, 3], none⟩) ∧
      ∃ layers region, Overlays (Packing.candidate Packet.context (pack Packet.context 1)) Layered.value
          (.writing Layered.layout Layered.value) Layered.layout.entries layers ∧
        (⟨#[5, 7, 2, 3], none⟩ : WalkState Bytes) = ⟨#[5] ++ region, none⟩ ∧ region.size = 3 ∧
          ∀ i < 3, region[i]? = some (topByte layers i) := by
  have packed : pack Packet.context 2 (.union Layered.layout 3) Layered.value ⟨#[5], none⟩ = .ok ((), ⟨#[5, 7, 2, 3], none⟩) := rfl
  exact ⟨packed, pack_union_topmost 1 packed⟩

end WireLayout
