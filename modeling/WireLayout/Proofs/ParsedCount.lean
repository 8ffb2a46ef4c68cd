import WireLayout.Proofs.LinkedCount

/-!
# The count of a transformed array

A number that no linked array names is read back as it was written, whatever is written behind it (`packFirst_keeps_number`). A linked
array in a transformed region names a field of the body around, but it writes its count over the bytes of the region: the count goes in
front of the elements, behind as many zeros as there are bytes in front of the field, and the field itself keeps what the value says
(`pack_parsedCount`). So two elements may be written with the count 0, and none is read (`pack_parsed_zero`).
-/

namespace WireLayout

open Packing Codec

variable {Γ : Context}

/-- A number is the same bytes in both runs. -/
theorem Codec.both_number {counter : Candidate} {kind : Number} (hcounter : Γ.registry.resolve counter = .ok (.number kind)) (depth : Nat)
    (x : Value) (m : Bytes) (s t : Scope) :
    Both
      (fun a b => ∃ win : Window, (∃ run, kind.encode Γ.options.byteOrder x = .ok run ∧ win.left = run.toArray) ∧ win.start = m.size ∧
        a = ((), ⟨m ++ win.left, some s⟩) ∧ b = ((), ⟨m ++ win.right, some t⟩))
      (candidate Γ (pack Γ depth) counter x ⟨m, some s⟩) (candidate Γ (pack Γ depth) counter x ⟨m, some t⟩) := by
  rw [Packing.candidate_eq hcounter]
  cases depth with
  | zero => exact .stop _
  | succ depth =>
    simp only [pack, packStep, Packing.number, onOutput, Number.pack_eq]
    cases hrun : kind.encode Γ.options.byteOrder x with
    | error fault => exact .stop _
    | ok run => exact .ok ⟨⟨m.size, run.toArray, run.toArray, rfl⟩, ⟨run, rfl, rfl⟩, rfl, rfl, rfl⟩

/-- A number that no linked array writes over stands in the output as it was written, however many fields are written behind it. -/
theorem Codec.packFirst_keeps_number {layout : Layout} (hwf : layout.WellFormed)
    (hcustom : Site.Throughout Γ.registry .any (fun site => site.schema.isCustom = false) (.top (.object layout)))
    {before behind rest : Keyed Candidate} {count : String} {counter : Candidate}
    (split : layout.entries = before ++ (count, counter) :: (behind ++ rest)) {kind : Number}
    (hcounter : Γ.registry.resolve counter = .ok (.number kind)) {v : Value}
    (hspares : ∀ pre key c post schema, layout.entries = pre ++ (key, c) :: post → Γ.registry.resolve c = .ok schema →
      Site.ThroughoutBody Γ.registry v (Veil.covering Γ.registry layout count fun _ => False).Admits ⟨schema, some ⟨layout, pre⟩, false⟩)
    {depth : Nat} {out : Bytes} {around : Option Scope}
    (hstays : ∀ scope s, Body.packFirst (candidate Γ (pack Γ depth)) v before (.writing layout v) ⟨out, around⟩ = .ok (scope, s) →
      scope.isExited = false)
    {r : Scope × WalkState Bytes}
    (h : Body.packFirst (candidate Γ (pack Γ depth)) v (before ++ (count, counter) :: behind) (.writing layout v) ⟨out, around⟩ = .ok r) :
    ∃ scope s run, Body.packFirst (candidate Γ (pack Γ depth)) v before (.writing layout v) ⟨out, around⟩ = .ok (scope, s) ∧
      kind.encode Γ.options.byteOrder ((v.get? count).getD .null) = .ok run ∧ r.1.layout = layout ∧
      r.1.offset? count = some s.medium.size ∧
      r.2.medium.extract s.medium.size (s.medium.size + kind.size) = run.toArray := by
  have hfirst : ∀ pre key c post schema, before = pre ++ (key, c) :: post → Γ.registry.resolve c = .ok schema →
      Site.ThroughoutBody Γ.registry v (Veil.covering Γ.registry layout count fun _ => False).Admits
        ⟨schema, some ⟨layout, pre⟩, false⟩ := by
    intro pre key c post schema hpre hc
    exact hspares pre key c (post ++ (count, counter) :: (behind ++ rest)) schema (by simp [split, hpre]) hc
  have hbehind : ∀ win pre key c post, behind = pre ++ (key, c) :: post →
      Tandem Γ ⟨.covering Γ.registry layout count fun _ => False, win, some layout, v⟩
        (candidate Γ (pack Γ depth) c ((v.get? key).getD .null)) := by
    intro win pre key c post hpre
    have hsplit : layout.entries = (before ++ (count, counter) :: pre) ++ (key, c) :: (post ++ rest) := by
      simp [split, hpre]
    exact tandem_field rfl hcustom hsplit (fun schema hc => hspares _ key c _ schema hsplit hc) _
  have hcount : count ∉ Keyed.keys behind := by
    have hother := Layout.not_mem_keys_behind hwf split
    rw [Keyed.keys_append, List.mem_append, not_or] at hother
    exact hother.1
  have hreached := exists_reached hwf hcustom split hfirst (fun _ _ => rfl) (fun _ _ => rfl) hstays
    fun m s t _ => both_number hcounter depth ((v.get? count).getD .null) m s t
  have hwhole : before ++ (count, counter) :: behind = (before ++ [(count, counter)]) ++ behind := by
    simp
  rw [hwhole, Body.packFirst_append (_ ++ [_])] at h
  obtain ⟨scope₁, s₁, hcounted, hrest⟩ := Walk.bind_eq_ok.mp h
  rw [hcounted] at hreached
  obtain ⟨_, heq, win, ⟨run, hrun, hleft⟩, ⟨scope, s, hbefore, hstart⟩, hreached⟩ := hreached.exists_of_ok
  cases heq
  have hend := hreached.packFirst (hbehind win) (fun _ _ => rfl) hcount
  dsimp only at hend
  rw [hrest] at hend
  obtain ⟨_, -, hend⟩ := hend.exists_of_ok
  refine ⟨scope, s, run, hbefore, hrun, (Option.some.inj hend.pairs.body).symm, by rw [hend.start, hstart], ?_⟩
  have hextract := hend.splits.extract
  have hstop : win.stop = s.medium.size + kind.size := by
    rw [Window.stop, hleft, hstart, List.size_toArray, Number.length_of_encode hrun]
  rw [hstop, ← hstart, hleft] at hextract
  exact hextract

/-! ## A count behind a transform -/

/-- The fields of a body in which an array of numbers in a transformed region is linked to a count before it, with no kind defined by the
user. -/
structure ParsedCount (Γ : Context) extends CountedFields where
  encode : Transcoder
  decode : Transcoder
  inner : Candidate
  size : Count
  item : Candidate
  itemKind : Number
  parses : Γ.registry.resolve linked = .ok (.parse encode decode inner size)
  links : Γ.registry.resolve inner = .ok (.link count item)
  numbers : Γ.registry.resolve item = .ok (.number itemKind)
  distinct : (Keyed.keys toCountedFields.fields).Nodup
  plain : Site.Throughout Γ.registry .any (fun site => site.schema.isCustom = false) (.top (.object toCountedFields.layout))

/-- Numbers are appended wherever the output ends. -/
theorem Elements.pack_numbers {run : Schema → Value → Packing Unit} {item : Candidate} {kind : Number}
    (hitem : Γ.registry.resolve item = .ok (.number kind)) {items : List Value} {body : Bytes}
    (hbody : kind.packEach Γ.options.byteOrder items #[] = .ok body) (out : Bytes) (scope : Option Scope) :
    pack Γ run item items items.length ⟨out, scope⟩ = .ok ((), ⟨out ++ body, scope⟩) := by
  have hout : kind.packEach Γ.options.byteOrder items out = .ok (out ++ body) := by
    have hwritten := kind.written_packEach Γ.options.byteOrder items out #[]
    rw [Array.append_empty, hbody] at hwritten
    exact hwritten
  rw [pack, Walk.resolve_bind_ok hitem]
  show packNumbers Γ kind items items.length ⟨out, scope⟩ = _
  rw [packNumbers_eq, ← onOutput_packEach]
  simp only [onOutput, hout]

/-- A linked array on an output of its own writes its count there, behind as many zeros as stand in front of the field. -/
theorem Codec.pack_parse_link {encode decode : Transcoder} {inner item counter : Candidate} {size : Count} {count : String}
    (hinner : Γ.registry.resolve inner = .ok (.link count item)) {itemKind : Number}
    (hitem : Γ.registry.resolve item = .ok (.number itemKind)) {scope : Scope} (hcounter : scope.fieldSchema? count = some counter)
    {start : Nat} (hstart : scope.offset? count = some start) {kind : Number} (hkind : Γ.registry.resolve counter = .ok (.number kind))
    {items : List Value} (hle : items.length ≤ kind.maxCount) {content : List UInt8}
    (hcontent : kind.encode Γ.options.byteOrder (.ofCount items.length) = .ok content) {body : Bytes}
    (hbody : itemKind.packEach Γ.options.byteOrder items #[] = .ok body) (depth : Nat) (out : Bytes) :
    pack Γ (depth + 2) (.parse encode decode inner size) (.list items) ⟨out, some scope⟩ =
      (Walk.ofExcept (encode.apply (Bytes.zeros start ++ content.toArray ++ body)) >>= Region.pack Γ size) ⟨out, some scope⟩ := by
  have hlink : pack Γ (depth + 1) (.link count item) (.list items) ⟨#[], some scope⟩ =
      .ok ((), ⟨Bytes.zeros start ++ content.toArray ++ body, some scope⟩) := by
    rw [← Bytes.patch_empty, ← Elements.pack_numbers hitem hbody]
    exact Sibling.packLink_apply hcounter hstart hkind hle hcontent #[]
  show Transform.pack Γ (pack Γ (depth + 1)) encode inner size (.list items) ⟨out, some scope⟩ = _
  rw [Transform.pack, Walk.bind_apply]
  simp only [collect, Walk.bind_apply, Walk.aside, Packing.candidate_eq hinner, hlink]
  rfl

namespace ParsedCount

variable {L : ParsedCount Γ} {kind : Number} {fields : Keyed Value} {items : List Value} {depth : Nat}

theorem wellFormed (L : ParsedCount Γ) : L.layout.WellFormed := L.distinct

/-- The transformed region looks at no field of the body but the count, which it names where it is out of reach. -/
theorem array_admits (hcounter : Γ.registry.resolve L.counter = .ok (.number kind)) (v : Value) (place : Place)
    (hplace : place.layout = L.layout) :
    Site.ThroughoutBody Γ.registry v (L.veil Γ.registry fun _ => False).Admits
      ⟨.parse L.encode L.decode L.inner L.size, some place, false⟩ := by
  have hnumber : ∀ kind, Site.ThroughoutBody Γ.registry v (L.veil Γ.registry fun _ => False).Admits ⟨.number kind, some place, true⟩ :=
    fun kind => Site.throughoutBody_number trivial
  refine Site.throughoutBody_intro trivial ?_
  rintro _ ⟨-, hinner⟩
  cases hinner with
  | inner hinner =>
    obtain rfl := Except.ok.inj (L.links.symm.trans hinner)
    refine Site.throughoutBody_intro (by rintro ⟨⟩) ?_
    rintro _ ⟨-, hlink⟩
    cases hlink with
    | linked hitem =>
      obtain rfl := Except.ok.inj (L.numbers.symm.trans hitem)
      exact hnumber _
    | counter hfound hc =>
      rw [hplace, CountedFields.get?_count L.wellFormed] at hfound
      obtain rfl := Option.some.inj hfound
      obtain rfl := Except.ok.inj (hcounter.symm.trans hc)
      exact hnumber _

/-- No field of the body but the transformed region, which does so out of reach, looks at the count. -/
theorem fields_admit (hcounter : Γ.registry.resolve L.counter = .ok (.number kind)) {v : Value}
    (hspares : ∀ pre key c post schema, L.fields = pre ++ (key, c) :: post → key ≠ L.array → Γ.registry.resolve c = .ok schema →
      Site.ThroughoutBody Γ.registry v (L.veil Γ.registry fun _ => False).Admits ⟨schema, some ⟨L.layout, pre⟩, false⟩)
    {pre post : Keyed Candidate} {key : String} {c : Candidate} {schema : Schema} (hsplit : L.layout.entries = pre ++ (key, c) :: post)
    (hc : Γ.registry.resolve c = .ok schema) :
    Site.ThroughoutBody Γ.registry v (L.veil Γ.registry fun _ => False).Admits ⟨schema, some ⟨L.layout, pre⟩, false⟩ := by
  by_cases hkey : key = L.array
  · subst hkey
    have hlinked : some c = some L.linked :=
      (Layout.get?_of_split L.wellFormed hsplit).symm.trans (Layout.get?_of_split L.wellFormed L.fields_eq)
    obtain rfl := Option.some.inj hlinked
    obtain rfl := Except.ok.inj (L.parses.symm.trans hc)
    exact array_admits hcounter v _ rfl
  · exact hspares pre key c post schema hsplit hkey hc

/-- What becomes of the count of a linked array in a transformed region. Let an object have a field for the count, which is an integer,
and behind it a transformed region that holds numbers linked to the count; let linked arrays elsewhere in the body name other fields,
which are numbers, no field before the count leave the body, and no kind defined by the user run inside. Once everything before the
region is written, the region is written from the count and the elements, behind as many zeros as there are bytes in front of the field
of the count. When the object is written, this field itself keeps what the value says of it. -/
theorem pack_parsedCount (hcounter : Γ.registry.resolve L.counter = .ok (.number kind)) (hint : kind.isFloat = false)
    (hitems : fields.lookup L.array = some (.list items)) (hle : items.length ≤ kind.maxCount) {body : Bytes}
    (hbody : L.itemKind.packEach Γ.options.byteOrder items #[] = .ok body)
    (hspares : ∀ pre key c post schema, L.fields = pre ++ (key, c) :: post → key ≠ L.array → Γ.registry.resolve c = .ok schema →
      Site.ThroughoutBody Γ.registry (.record fields) (L.veil Γ.registry fun _ => False).Admits ⟨schema, some ⟨L.layout, pre⟩, false⟩)
    {out : Bytes} {around : Option Scope}
    (hstays : ∀ scope s, Body.packFirst (candidate Γ (pack Γ (depth + 2))) (.record fields) L.before
      (.writing L.layout (.record fields)) ⟨out, around⟩ = .ok (scope, s) → scope.isExited = false) :
    (∀ scope₁ s₁,
        Body.packFirst (candidate Γ (pack Γ (depth + 2))) (.record fields) L.first (.writing L.layout (.record fields)) ⟨out, around⟩ =
          .ok (scope₁, s₁) →
        ∃ scope s content,
          Body.packFirst (candidate Γ (pack Γ (depth + 2))) (.record fields) L.before (.writing L.layout (.record fields)) ⟨out, around⟩ =
            .ok (scope, s) ∧
          kind.encode Γ.options.byteOrder (.ofCount items.length) = .ok content ∧
          candidate Γ (pack Γ (depth + 2)) L.linked ((fields.lookup L.array).getD .null)
              ⟨s₁.medium, some (scope₁.mark L.array s₁.medium.size)⟩ =
            (Walk.ofExcept (L.encode.apply (Bytes.zeros s.medium.size ++ content.toArray ++ body)) >>= Region.pack Γ L.size)
              ⟨s₁.medium, some (scope₁.mark L.array s₁.medium.size)⟩) ∧
      ∀ s', pack Γ (depth + 3) (.object L.layout) (.record fields) ⟨out, around⟩ = .ok ((), s') →
        ∃ scope s run,
          Body.packFirst (candidate Γ (pack Γ (depth + 2))) (.record fields) L.before (.writing L.layout (.record fields)) ⟨out, around⟩ =
            .ok (scope, s) ∧
          kind.encode Γ.options.byteOrder ((fields.lookup L.count).getD .null) = .ok run ∧
          kind.unpack Γ.options.byteOrder ⟨s'.medium, s.medium.size⟩ =
            .ok (kind.decode Γ.options.byteOrder run, ⟨s'.medium, s.medium.size + kind.size⟩) := by
  have hadmits : ∀ pre key c post schema, L.layout.entries = pre ++ (key, c) :: post → Γ.registry.resolve c = .ok schema →
      Site.ThroughoutBody Γ.registry (.record fields) (L.veil Γ.registry fun _ => False).Admits ⟨schema, some ⟨L.layout, pre⟩, false⟩ :=
    fun pre key c post schema hsplit hc => fields_admit hcounter hspares hsplit hc
  refine ⟨?_, ?_⟩
  · intro scope₁ s₁ hfirst
    have hsplit : L.layout.entries = L.before ++ (L.count, L.counter) :: (L.between ++ ((L.array, L.linked) :: L.after)) := rfl
    obtain ⟨scope, s, _, hbefore, -, hlayout, hoffset, -⟩ :=
      packFirst_keeps_number L.wellFormed L.plain hsplit hcounter hadmits hstays hfirst
    obtain ⟨content, hcontent⟩ := Number.exists_encode hint Γ.options.byteOrder (v := .ofCount items.length) (Or.inr ⟨_, rfl⟩)
    obtain ⟨hcounter', hstart⟩ := CountedFields.names_count L.wellFormed hlayout hoffset s₁.medium.size
    refine ⟨scope, s, content, hbefore, hcontent, ?_⟩
    rw [Packing.candidate_eq L.parses, hitems]
    exact pack_parse_link L.links L.numbers hcounter' hstart hcounter hle hcontent hbody depth s₁.medium
  · intro s' hpacked
    rw [show pack Γ (depth + 3) (.object L.layout) (.record fields) = Body.packFields (candidate Γ (pack Γ (depth + 2)))
      (.record fields) L.fields (.writing L.layout (.record fields)) from pure_bind _ _, Body.packFields_eq] at hpacked
    obtain ⟨scope₂, s₂, hall, hend⟩ := Walk.bind_eq_ok.mp hpacked
    cases hend
    have hwhole : L.layout.entries = L.before ++ (L.count, L.counter) :: ((L.between ++ (L.array, L.linked) :: L.after) ++ []) := by
      rw [List.append_nil]
      rfl
    obtain ⟨scope, s, run, hbefore, hrun, -, -, hextract⟩ :=
      packFirst_keeps_number L.wellFormed L.plain hwhole hcounter hadmits hstays hall
    have hsize : run.toArray.size = kind.size := Number.length_of_encode hrun
    rw [← hsize] at hextract
    exact ⟨scope, s, run, hbefore, hrun, Number.unpack_eq_decode _ hsize hextract⟩

end ParsedCount

namespace Framed

/-- Bytes in a region of their own, behind their count. -/
def counted : CountedFields where
  before := []
  count := "count"
  counter := .number .uint8
  between := []
  array := "items"
  linked := .parse ⟨"copy", .ok⟩ ⟨"copy", .ok⟩ (.link "count" (.number .uint8)) (.prefixed (.number .uint8))
  after := []

theorem counted_plain :
    Site.Throughout Packet.context.registry .any (fun site => site.schema.isCustom = false) (.top (.object counted.layout)) := by
  refine Site.throughout_object rfl ?_
  intro i key c schema hi hc
  rcases i with _ | _ | i
  · cases hi
    cases hc
    exact Site.throughout_number rfl
  · cases hi
    cases hc
    refine Site.throughout_intro rfl ?_
    intro site' hr
    cases hr with
    | inner hinner =>
      cases hinner
      refine Site.throughout_link rfl ?_ ?_
      · rintro _ ⟨⟩
        exact Site.throughout_number rfl
      · rintro _ _ ⟨⟩ ⟨⟩
        exact Site.throughout_number rfl
  · cases hi

def parsedCount : ParsedCount Packet.context where
  toCountedFields := counted
  encode := ⟨"copy", .ok⟩
  decode := ⟨"copy", .ok⟩
  inner := .link "count" (.number .uint8)
  size := .prefixed (.number .uint8)
  item := .number .uint8
  itemKind := .uint8
  parses := rfl
  links := rfl
  numbers := rfl
  distinct := by decide
  plain := counted_plain

/-- Two bytes, without a count. -/
def fields : Keyed Value := [("items", .list [.int 7, .int 9])]

end Framed

/-- Without a count in the value the field reads as what null is written as. -/
theorem ParsedCount.pack_parsedCount_framed :
    ∃ s' run, pack Packet.context 4 (.object Framed.parsedCount.layout) (.record Framed.fields) ⟨#[], none⟩ = .ok ((), s') ∧
      Number.uint8.encode .little .null = .ok run ∧
      Number.uint8.unpack .little ⟨s'.medium, 0⟩ = .ok (Number.uint8.decode .little run, ⟨s'.medium, 1⟩) := by
  have hpacked : pack Packet.context 4 (.object Framed.parsedCount.layout) (.record Framed.fields) ⟨#[], none⟩ =
      .ok ((), ⟨#[0, 3, 2, 7, 9], none⟩) := rfl
  have hspares : ∀ pre key c post schema, Framed.parsedCount.fields = pre ++ (key, c) :: post → key ≠ "items" →
      Packet.context.registry.resolve c = .ok schema →
      Site.ThroughoutBody Packet.context.registry (.record Framed.fields)
        (Framed.parsedCount.veil Packet.context.registry fun _ => False).Admits
        ⟨schema, some ⟨Framed.parsedCount.layout, pre⟩, false⟩ := by
    intro pre key c post schema hsplit hkey hc
    rcases pre with _ | ⟨_, _ | ⟨_, _⟩⟩
    · cases hsplit
      cases hc
      exact Site.throughoutBody_number trivial
    · cases hsplit
      exact absurd rfl hkey
    · simp [Framed.parsedCount, Framed.counted, CountedFields.fields] at hsplit
  have hstays : ∀ scope s, Body.packFirst (candidate Packet.context (pack Packet.context 3)) (.record Framed.fields) []
      (.writing Framed.parsedCount.layout (.record Framed.fields)) ⟨#[], none⟩ = .ok (scope, s) → scope.isExited = false := by
    intro scope s h
    cases h
    rfl
  have hitems : Framed.fields.lookup "items" = some (.list [.int 7, .int 9]) := rfl
  have hbody : Number.packEach .uint8 .little [.int 7, .int 9] #[] = .ok #[7, 9] := rfl
  obtain ⟨-, hkept⟩ := pack_parsedCount (L := Framed.parsedCount) rfl rfl hitems (by decide) hbody hspares hstays
  obtain ⟨scope, s, run, hbefore, hrun, hread⟩ := hkept _ hpacked
  cases hbefore
  exact ⟨_, run, hpacked, hrun, hread⟩

/-- Two bytes are written with the count 0: the count 2 stands among the bytes of the region, and none of them is read. -/
theorem pack_parsed_zero :
    pack Packet.context 4 (.object Framed.parsedCount.layout) (.record Framed.fields) ⟨#[], none⟩ =
        .ok ((), ⟨#[0, 3, 2, 7, 9], none⟩) ∧
      unpack Packet.context 4 (.object Framed.parsedCount.layout) ⟨.ofBytes #[0, 3, 2, 7, 9], none⟩ =
        .ok (.record [("count", .int 0), ("items", .list [])], ⟨⟨#[0, 3, 2, 7, 9], 5⟩, none⟩) :=
  ⟨rfl, rfl⟩

end WireLayout
