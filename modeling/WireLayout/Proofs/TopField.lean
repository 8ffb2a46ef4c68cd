import WireLayout.Proofs.ForwardDepend
import WireLayout.Proofs.Overlay
import WireLayout.Proofs.PairOrder
import WireLayout.Proofs.RoundTrip
import WireLayout.Proofs.Staying

/-!
# The field on top of a union

The last field of a union that the value has is written over all the others, so its bytes stand at the start of the region whatever the
others wrote; behind them are leftovers of longer fields, or zeros. Reading goes over the region field by field, each from the start, and
every schema ignores what lies behind its own bytes. So when a union is read back, the field on top has the value that was written
(`TopField.unpack_top`): with the pairs of its records in the order of their layouts, which is how they are read.
-/

namespace WireLayout

open Codec

/-- Whether a schema is neither an exit, nor dependent on another field, nor defined by the user. -/
def Schema.isSteady : Schema → Bool
  | exit | depend _ _ | custom _ => false
  | _ => true

theorem Schema.mayLeave_of_isSteady {schema : Schema} (h : schema.isSteady = true) : schema.mayLeave = false := by
  cases schema <;> first | rfl | cases h

theorem Schema.seesOrder_of_isSteady {schema : Schema} (h : schema.isSteady = true) : schema.seesOrder = false := by
  cases schema <;> first | rfl | cases h

namespace Body

variable {run : Candidate → Value → Packing Unit} {v : Value} {scope : Scope}

/-- Fields that the value does not have make no layers. -/
theorem Overlays.eq_nil {fields : Keyed Candidate} {layers : List Bytes} (h : Overlays run v scope fields layers)
    (absent : ∀ key ∈ Keyed.keys fields, v.get? key = none) : layers = [] := by
  induction h with
  | nil => rfl
  | absent _ _ ih => exact ih fun key hkey => absent key (List.mem_cons_of_mem _ hkey)
  | stays present _ _ _ | exits present _ =>
    rw [absent _ List.mem_cons_self] at present
    cases present

/-- The last field that the value has makes the last layer, when no field in front of it leaves the body. -/
theorem Overlays.last {before after : Keyed Candidate} {key : String} {c : Candidate} {content : Value} {layers : List Bytes}
    (h : Overlays run v scope (before ++ (key, c) :: after) layers) (inside : scope.isExited = false)
    (stays : ∀ field ∈ before, ∀ content s', run field.2 content ⟨#[], some scope⟩ = .ok ((), s') → s'.scope = some scope)
    (present : v.get? key = some content) (absent : ∀ key ∈ Keyed.keys after, v.get? key = none) :
    ∃ lower top inner, layers = lower ++ [top] ∧ run c content ⟨#[], some scope⟩ = .ok ((), ⟨top, inner⟩) := by
  induction before generalizing layers with
  | nil =>
    cases h with
    | absent missing _ =>
      rw [present] at missing
      cases missing
    | stays found written rest =>
      cases present.symm.trans found
      exact ⟨[], _, _, congrArg (_ :: ·) (rest.eq_nil absent), written⟩
    | exits found written =>
      cases present.symm.trans found
      exact ⟨[], _, _, rfl, written⟩
  | cons field before ih =>
    have hrest := fun field hmem => stays field (List.mem_cons_of_mem _ hmem)
    cases h with
    | absent _ rest => exact ih rest hrest
    | stays _ _ rest =>
      obtain ⟨lower, top, inner, hlayers, written⟩ := ih rest hrest
      exact ⟨_ :: lower, top, inner, congrArg (_ :: ·) hlayers, written⟩
    | exits _ written =>
      have left : some scope.exit = some scope := stays _ List.mem_cons_self _ _ written
      have exited : scope.exit.isExited = scope.isExited := congrArg Scope.isExited (Option.some.inj left)
      rw [inside] at exited
      cases exited

/-- All of the last layer is seen. -/
theorem topByte_append {lower : List Bytes} {top : Bytes} {i : Nat} (reached : i < top.size) :
    some (topByte (lower ++ [top]) i) = top[i]? := by
  have here : top[i]? = some top[i] := Array.getElem?_eq_getElem reached
  rw [topByte, List.filterMap_append, List.filterMap_cons, here]
  simp

theorem liesAt_top (lower : List Bytes) {top : Bytes} {size : Nat} (short : top.size ≤ size) :
    top.LiesAt ((lower ++ [top]).foldl overlay (Bytes.zeros size)) 0 := by
  refine Array.ext_getElem? fun i => ?_
  rw [Array.getElem?_extract, size_foldl_zeros, Nat.zero_add, Nat.zero_add, Nat.sub_zero, Nat.min_eq_left short]
  by_cases reached : i < top.size
  · rw [if_pos reached, getElem?_foldl_zeros _ (Nat.lt_of_lt_of_le reached short), topByte_append reached]
  · rw [if_neg reached, Array.getElem?_eq_none (Nat.le_of_not_lt reached)]

/-- What a field was read as is found under its key, when no field in front of it leaves the body. -/
theorem unpackFields_found {run : Candidate → Unpacking Value} (leaves : ∀ c, Walk.Leaves (run c)) {layout : Layout}
    (wellFormed : layout.WellFormed) {before after : Keyed Candidate} {key : String} {c : Candidate}
    (split : layout.entries = before ++ (key, c) :: after) (stays : ∀ field ∈ before, Walk.Stays (run field.2)) {s : WalkState Cursor}
    {r : Scope × WalkState Cursor} (h : unpackFields run layout.entries (.reading layout) s = .ok r) :
    ∃ v s₁ s₂, run c s₁ = .ok (v, s₂) ∧ r.1.value.get? key = some v := by
  rw [split, unpackFields_append] at h
  obtain ⟨scope, s₁, hbefore, hrest⟩ := Walk.bind_eq_ok.mp h
  have inside : scope.isExited = false := unpackFields_stays stays rfl hbefore
  have hsplit : layout.entries = [] ++ (before ++ (key, c) :: after) := split
  obtain ⟨contents, hlength, hscope⟩ := unpackFields_value leaves wellFormed hsplit rfl layout.valueOf_nil.symm hbefore
  obtain ⟨v, ⟨medium, inner⟩, hfield, hafter⟩ := (unpackFields_cons_eq_ok inside).mp hrest
  obtain ⟨fires, hleft⟩ := leaves c _ _ _ hfield
  cases hleft
  have hbehind : (scope.leave fires).value = layout.valueOf contents := hscope
  have hpush := Layout.push_value wellFormed split hlength hbehind v
  have hsplit' : layout.entries = (before ++ [(key, c)]) ++ (after ++ []) := by
    rw [split, List.append_nil, List.append_assoc]
    rfl
  obtain ⟨more, -, hlast⟩ := unpackFields_value leaves wellFormed hsplit' (Keyed.length_next hlength v (key, c)) hpush hafter
  refine ⟨v, _, _, hfield, ?_⟩
  rw [hlast, List.append_assoc]
  exact Layout.get?_valueOf wellFormed split hlength v more

end Body

open Body

/-- A field of a union of steady fields, where the field sees nothing around. -/
structure TopField (Γ : Context) where
  layout : Layout
  size : Nat
  before : Keyed Candidate
  key : String
  field : Candidate
  after : Keyed Candidate
  schema : Schema
  wellFormed : layout.WellFormed
  split : layout.entries = before ++ (key, field) :: after
  resolved : Γ.registry.resolve field = .ok schema
  calm : schema.Calm Γ.registry
  steady : Site.Throughout Γ.registry .any (fun site => site.schema.isSteady = true) (.top (.union layout size))

namespace TopField

variable {Γ : Context} (T : TopField Γ)

theorem steady_field {before after : Keyed Candidate} {key : String} {c : Candidate} {schema : Schema}
    (split : T.layout.entries = before ++ (key, c) :: after) (resolved : Γ.registry.resolve c = .ok schema) :
    Site.Throughout Γ.registry .any (fun site => site.schema.isSteady = true) ⟨schema, some ⟨T.layout, before⟩, false⟩ :=
  T.steady.of_runs (.view split resolved)

theorem mem_entries {field : String × Candidate} (h : field ∈ T.before) : field ∈ T.layout.entries := by
  rw [T.split]
  exact List.mem_append_left _ h

/-! ## Writing -/

/-- When the field is the last one that the value has, its bytes are the last layer. -/
theorem layers_last {depth : Nat} {v content : Value} (present : v.get? T.key = some content)
    (absent : ∀ key ∈ Keyed.keys T.after, v.get? key = none) {layers : List Bytes}
    (h : Overlays (Packing.candidate Γ (pack Γ depth)) v (.writing T.layout v) T.layout.entries layers) :
    ∃ lower top inner, layers = lower ++ [top] ∧
      pack Γ depth T.schema content ⟨#[], some (.writing T.layout v)⟩ = .ok ((), ⟨top, inner⟩) := by
  rw [T.split] at h
  have stays : ∀ field ∈ T.before, ∀ content s', Packing.candidate Γ (pack Γ depth) field.2 content
      ⟨#[], some (.writing T.layout v)⟩ = .ok ((), s') → s'.scope = some (.writing T.layout v) := by
    intro field hmem content s' hs
    obtain ⟨front, rest, split⟩ := List.append_of_mem (T.mem_entries hmem)
    have kept : Walk.Stays (Packing.candidate Γ (pack Γ depth) field.2 content) := by
      refine Walk.Moves.resolve fun schema resolved => ?_
      exact pack_stays depth ((T.steady_field split resolved).mono fun _ => Schema.mayLeave_of_isSteady) content
    refine kept _ _ _ hs ?_
    rintro s ⟨⟩
    rfl
  obtain ⟨lower, top, inner, hlayers, written⟩ := h.last rfl stays present absent
  rw [Packing.candidate_eq T.resolved] at written
  exact ⟨lower, top, inner, hlayers, written⟩

/-- What the field writes in the body of the union is what it writes alone, and what the value writes that is read back. -/
theorem top_eq {depth depth' : Nat} {content w : Value} {scope inner : Option Scope} {top written bytes : Bytes}
    (inUnion : pack Γ depth T.schema content ⟨#[], scope⟩ = .ok ((), ⟨top, inner⟩))
    (alone : packed Γ (depth + 1) T.schema content = .ok written) (same : content.Reordered w)
    (trip : RoundTrips none (unpack Γ depth' T.schema) (pack Γ depth' T.schema w) w bytes false) : top = written ∧ top = bytes := by
  -- A body to run in whose value is the same in any order.
  let around : Option Scope := some (.writing T.layout .null)
  have scopeless : ∀ scope inner, pack Γ depth T.schema content ⟨#[], scope⟩ = .ok ((), ⟨top, inner⟩) →
      ∀ scope', pack Γ depth T.schema content ⟨#[], scope'⟩ = .ok ((), ⟨top, scope'⟩) := by
    intro scope inner hs scope'
    have h := scopeless_pack depth T.calm content
    rw [h] at hs
    rw [h]
    cases hnone : pack Γ depth T.schema content ⟨#[], none⟩ with
    | error stop =>
      rw [hnone] at hs
      cases hs
    | ok result =>
      rw [hnone] at hs
      cases hs
      rfl
  have anywhere := scopeless scope inner inUnion
  constructor
  · have behind := (pack_approximates_of_le (Nat.le_succ depth) T.schema content).eq_ok (anywhere none)
    rw [packed, behind] at alone
    cases alone
    rfl
  · have hcontent := (pack_approximates_of_le (Nat.le_max_left depth depth') T.schema content).eq_ok (anywhere around)
    have hw := (pack_approximates_of_le (Nat.le_max_right depth depth') T.schema w).eq_ok (trip.writes #[] around (.none around))
    have blind := (T.steady_field T.split T.resolved).mono fun _ => Schema.seesOrder_of_isSteady
    have agreed := pack_oblivious (max depth depth') blind same #[] around around (.inside (.writing T.layout .null))
    rw [hcontent, hw] at agreed
    cases agreed with
    | ok meets =>
      have output : #[] ++ bytes = top := meets.output
      rw [← output, Array.empty_append]

/-! ## Reading -/

/-- Reads a field from the start of a region. -/
def fromStart (Γ : Context) (depth : Nat) (region : Bytes) (field : Candidate) : Unpacking Value := do
  let (v, _) ← Walk.aside (Cursor.ofBytes region) (Unpacking.candidate Γ (unpack Γ depth) field)
  return v

theorem leaves_fromStart (depth : Nat) (region : Bytes) (field : Candidate) : Walk.Leaves (fromStart Γ depth region field) :=
  (Walk.Moves.aside (Walk.Leaves.resolve fun schema => unpack_leaves depth schema) _).bind fun _ => .pure _

theorem stays_fromStart (depth : Nat) (region : Bytes) {before after : Keyed Candidate} {key : String} {c : Candidate}
    (split : T.layout.entries = before ++ (key, c) :: after) : Walk.Stays (fromStart Γ depth region c) := by
  have content : Walk.Stays (Unpacking.candidate Γ (unpack Γ depth) c) := by
    refine Walk.Moves.resolve fun schema resolved => ?_
    exact unpack_stays depth ((T.steady_field split resolved).mono fun _ => Schema.mayLeave_of_isSteady)
  exact (content.aside _).bind fun _ => .pure _

theorem fromStart_eq_ok {depth : Nat} {region : Bytes} {field : Candidate} {schema : Schema}
    (resolved : Γ.registry.resolve field = .ok schema) {s : WalkState Cursor} {r : Value × WalkState Cursor}
    (h : fromStart Γ depth region field s = .ok r) : ∃ s', unpack Γ depth schema ⟨Cursor.ofBytes region, s.scope⟩ = .ok (r.1, s') := by
  obtain ⟨⟨v, c⟩, s₁, hcontent, hr⟩ := Walk.bind_eq_ok.mp h
  cases hr
  rw [Unpacking.candidate_eq resolved] at hcontent
  obtain ⟨_, s', hrun, ⟨⟩⟩ := Walk.aside_eq_ok.mp hcontent
  exact ⟨s', hrun⟩

/-- When the union is read from a region in which the field reads this, the value has this under the key of the field. -/
theorem unpack_region {depth : Nat} {region data : Bytes} {p : Nat} {around : Option Scope} {u w : Value} {t : WalkState Cursor}
    (hsize : region.size = T.size) (hlies : region.LiesAt data p)
    (reads : ∀ scope x s', unpack Γ depth T.schema ⟨⟨region, 0⟩, scope⟩ = .ok (x, s') → x = w)
    (h : unpack Γ (depth + 1) (.union T.layout T.size) ⟨⟨data, p⟩, around⟩ = .ok (u, t)) : u.get? T.key = some w := by
  obtain ⟨window, s₁, htake, hfields⟩ := Walk.bind_eq_ok.mp h
  obtain ⟨-, hwindow⟩ := Unpacking.take_eq_ok.mp htake
  obtain ⟨hregion, -⟩ := Prod.mk.inj hwindow
  have same : window = region := by
    rw [hregion, ← hsize]
    exact hlies
  subst same
  obtain ⟨last, s₂, hread, hvalue⟩ := Walk.bind_eq_ok.mp hfields
  cases hvalue
  change unpackFields (fromStart Γ depth window) T.layout.entries (.reading T.layout) s₁ = .ok (last, t) at hread
  have stays : ∀ field ∈ T.before, Walk.Stays (fromStart Γ depth window field.2) := by
    intro field hmem
    obtain ⟨front, rest, split⟩ := List.append_of_mem (T.mem_entries hmem)
    exact T.stays_fromStart depth window split
  obtain ⟨x, s, s', hfield, hfound⟩ := unpackFields_found (leaves_fromStart depth window) T.wellFormed T.split stays hread
  obtain ⟨s'', hrun⟩ := fromStart_eq_ok T.resolved hfield
  rw [← reads _ _ _ hrun]
  exact hfound

/-- In a union of steady fields, the last field that the value has survives. When its content fits and its bytes fit into the region, then
whatever the fields in front of it wrote, and whatever lies behind the union, reading the union gives that content back, if it gives
anything. A record reads with its pairs in the order of its layout, so the content need only be one that fits but for that order. -/
theorem unpack_top {c : Candidate} (hc : Γ.registry.resolve c = .ok (.union T.layout T.size)) {v content w : Value} {bytes written : Bytes}
    (packed : Γ.registry.packWith c v Γ.options = .ok bytes) (present : v.get? T.key = some content)
    (last : ∀ key ∈ Keyed.keys T.after, v.get? key = none) (same : content.Reordered w) {depth : Nat}
    (fits : Fits Γ depth none T.schema w false) (alone : Γ.registry.packWith T.field content Γ.options = .ok written)
    (short : written.size ≤ T.size) (rest : Bytes) {u : Value} {s : WalkState Cursor}
    (unpacked : unpackCandidate Γ c ⟨Cursor.ofBytes (bytes ++ rest), none⟩ = .ok (u, s)) : u.get? T.key = some w := by
  rw [packWith_of_resolve hc] at packed
  rw [packWith_of_resolve T.resolved] at alone
  rw [unpackCandidate, Unpacking.candidate_eq hc] at unpacked
  cases hdepth : Γ.registry.limits.depth with
  | zero =>
    rw [hdepth] at packed
    cases packed
  | succ most =>
    rw [hdepth] at packed alone unpacked
    obtain ⟨inner, hpack⟩ := packed_eq_ok.mp packed
    obtain ⟨layers, hlayers, hout⟩ := packUnion_layers (fun c content => .resolve fun schema => pack_leaves most schema content) hpack
    cases hout
    obtain ⟨lower, top, inner, rfl, inUnion⟩ := T.layers_last present last hlayers
    obtain ⟨own, trip⟩ := fits.roundTrips
    obtain ⟨rfl, rfl⟩ := T.top_eq inUnion alone same trip
    rw [Array.empty_append] at unpacked
    have hlies := liesAt_top lower short
    refine T.unpack_region (size_foldl_zeros _ _) (.append _ rest) (fun scope x s' hx => ?_) unpacked
    -- Both read the same at the greater depth, and the one from the content that fits reads it back.
    have read := (unpack_approximates_of_le (Nat.le_max_left most depth) T.schema).eq_ok hx
    have back := (unpack_approximates_of_le (Nat.le_max_right most depth) T.schema).eq_ok (trip.reads _ 0 scope (.none scope) hlies)
    rw [read] at back
    cases back
    rfl

end TopField

namespace Views

def pair : Layout := .named [("x", .number .uint8), ("y", .number .uint8)]

/-- A word, a pair of bytes over the start of it, and half a word. -/
def layout : Layout := .named [("word", .number .uint32), ("pair", .object pair), ("half", .number .uint16)]

theorem steady : Site.Throughout Registry.standard .any (fun site => site.schema.isSteady = true) (.top (.union layout 4)) := by
  refine Site.throughout_union rfl ?_
  intro i key c schema hi hc
  match i with
  | 0 | 2 =>
    cases hi
    cases hc
    exact Site.throughout_number rfl
  | 1 =>
    cases hi
    cases hc
    refine Site.throughout_object rfl ?_
    intro i key c schema hi hc
    match i with
    | 0 | 1 =>
      cases hi
      cases hc
      exact Site.throughout_number rfl
    | i + 2 => cases hi
  | i + 3 => cases hi

def topField : TopField Packet.context where
  layout := layout
  size := 4
  before := [("word", .number .uint32)]
  key := "pair"
  field := .object pair
  after := [("half", .number .uint16)]
  schema := .object pair
  wellFormed := List.nodup_iff_pairwise_ne.mpr (by decide)
  split := rfl
  resolved := rfl
  calm := .object pair
  steady := steady

/-- The pair comes first here, and with its second byte in front. -/
def value : Value := .record [("pair", .record [("y", .int 66), ("x", .int 65)]), ("word", .int 0x64636261)]

/-- The pair as it is read. -/
def ordered : Value := .record [("x", .int 65), ("y", .int 66)]

theorem same : Value.Reordered (.record [("y", .int 66), ("x", .int 65)]) ordered :=
  .record (by decide) (.cons "y" (.int 66) (.cons "x" (.int 65) .nil)) (.swap ..)

theorem fits : Fits Packet.context 2 none (.object pair) ordered false := by
  have byte : ∀ around n, Number.uint8.Stores n → Fits Packet.context 1 around (.number .uint8) (.int n) false :=
    fun _ _ stores => .number stores
  have hvalue : ordered = pair.valueOf [.int 65, .int 66] := rfl
  rw [hvalue]
  refine .object (List.nodup_iff_pairwise_ne.mpr (by decide)) ?_
  exact .next rfl (byte _ 65 ⟨rfl, by decide, by decide⟩) (.next rfl (byte _ 66 ⟨rfl, by decide, by decide⟩) .nil)

end Views

/-- The word shows behind the pair, and the half reads what the pair wrote. -/
theorem TopField.unpack_top_pair :
    Registry.standard.packWith (.union Views.layout 4) Views.value .littleEndian = .ok #[65, 66, 99, 100] ∧
      ∃ u s, unpackCandidate Packet.context (.union Views.layout 4) ⟨Cursor.ofBytes (#[65, 66, 99, 100] ++ #[9]), none⟩ = .ok (u, s) ∧
        u.get? "word" = some (.int 0x64634241) ∧ u.get? "pair" = some Views.ordered := by
  have packed : Registry.standard.packWith (.union Views.layout 4) Views.value .littleEndian = .ok #[65, 66, 99, 100] := rfl
  obtain ⟨u, s, unpacked, word⟩ : ∃ u s, unpackCandidate Packet.context (.union Views.layout 4)
      ⟨Cursor.ofBytes (#[65, 66, 99, 100] ++ #[9]), none⟩ = .ok (u, s) ∧ u.get? "word" = some (.int 0x64634241) :=
    ⟨.record [("word", .int 0x64634241), ("pair", Views.ordered), ("half", .int 0x4241)], ⟨⟨#[65, 66, 99, 100] ++ #[9], 4⟩, none⟩, rfl, rfl⟩
  have absent : ∀ key ∈ Keyed.keys Views.topField.after, Views.value.get? key = none := by
    rintro key hkey
    cases List.mem_singleton.mp hkey
    rfl
  have alone : Registry.standard.packWith (.object Views.pair) (.record [("y", .int 66), ("x", .int 65)]) .littleEndian =
    .ok #[65, 66] := rfl
  exact ⟨packed, u, s, unpacked, word,
    unpack_top Views.topField rfl packed rfl absent Views.same Views.fits alone (by decide) #[9] unpacked⟩

end WireLayout
