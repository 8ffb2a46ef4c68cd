import WireLayout.Proofs.Counting
import WireLayout.Proofs.Reversal

/-!
# The count of a linked array

A linked array writes the number of its elements over the bytes of an earlier field. Two runs of a body that differ in the value of that
field come together there: the window between them is filled with the same bytes (`link_fill`), and nothing else of the two outputs
was different. So what the value says of the count never shows (`pack_linkedCount`).
-/

namespace WireLayout

/-! ## A body with a count -/

/-- The fields of a body in which a count stands before an array. -/
structure CountedFields where
  before : Keyed Candidate
  count : String
  counter : Candidate
  between : Keyed Candidate
  array : String
  linked : Candidate
  after : Keyed Candidate

namespace CountedFields

variable (F : CountedFields)

/-- The fields before the array. -/
def first : Keyed Candidate := F.before ++ (F.count, F.counter) :: F.between

def fields : Keyed Candidate := F.before ++ (F.count, F.counter) :: (F.between ++ (F.array, F.linked) :: F.after)

def layout : Layout := .named F.fields

theorem fields_eq : F.fields = F.first ++ (F.array, F.linked) :: F.after := by
  simp [fields, first]

theorem first_ne_nil : F.first ≠ [] := by
  simp [first]

variable {F} (hwf : F.layout.WellFormed)

include hwf

theorem get?_count : F.layout.get? F.count = some F.counter := Layout.get?_of_split hwf rfl

theorem count_not_mem : F.count ∉ Keyed.keys F.before ∧ F.count ∉ Keyed.keys F.between ∧ F.count ≠ F.array ∧
    F.count ∉ Keyed.keys F.after := by
  have hsplit : F.layout.entries = F.before ++ (F.count, F.counter) :: (F.between ++ (F.array, F.linked) :: F.after) := rfl
  have hbefore := Layout.not_mem_keys_of_split hwf hsplit
  have hbehind := Layout.not_mem_keys_behind hwf hsplit
  rw [Keyed.keys_append, List.mem_append, not_or] at hbehind
  refine ⟨hbefore, hbehind.1, fun heq => hbehind.2 ?_, fun hmem => hbehind.2 (List.mem_cons_of_mem _ hmem)⟩
  exact heq ▸ List.mem_cons_self

theorem array_not_mem : F.array ∉ Keyed.keys F.first ∧ F.array ∉ Keyed.keys F.after :=
  ⟨Layout.not_mem_keys_of_split hwf F.fields_eq, Layout.not_mem_keys_behind hwf F.fields_eq⟩

/-- Where the array runs, the count is found as it was noted. -/
theorem names_count {s : Scope} (hlayout : s.layout = F.layout) {start : Nat} (hstart : s.offset? F.count = some start) (n : Nat) :
    (s.mark F.array n).fieldSchema? F.count = some F.counter ∧ (s.mark F.array n).offset? F.count = some start := by
  obtain ⟨-, -, harray, -⟩ := count_not_mem hwf
  refine ⟨?_, ?_⟩
  · rw [Scope.fieldSchema?, Scope.mark, hlayout, get?_count hwf]
  · rw [Scope.offset?, Scope.mark, Keyed.lookup_insert, if_neg harray]
    exact hstart

omit hwf

variable (F)

/-- Some fields are not read, and linked arrays name numbers other than the count. -/
def veil (r : Registry) (unread : String → Prop) : Veil := .covering r F.layout F.count unread

end CountedFields

/-- The fields of a body in which an array is linked to a count before it, with no kind defined by the user. -/
structure LinkedCount (Γ : Context) extends CountedFields where
  item : Candidate
  links : Γ.registry.resolve linked = .ok (.link count item)
  distinct : (Keyed.keys toCountedFields.fields).Nodup
  plain : Site.Throughout Γ.registry .any (fun site => site.schema.isCustom = false) (.top (.object toCountedFields.layout))

open Packing Codec

variable {Γ : Context}

namespace LinkedCount

variable (L : LinkedCount Γ)

/-- Whatever runs in the body besides the linked array itself reads none of these fields, and links to other numbers. -/
structure Spares (unread : String → Prop) (v : Value) : Prop where
  fields : ∀ pre key c post schema, L.fields = pre ++ (key, c) :: post → key ≠ L.array → Γ.registry.resolve c = .ok schema →
    Site.ThroughoutBody Γ.registry v (L.veil Γ.registry unread).Admits ⟨schema, some ⟨L.layout, pre⟩, false⟩
  items : ∀ schema, Γ.registry.resolve L.item = .ok schema →
    Site.ThroughoutBody Γ.registry v (L.veil Γ.registry unread).Admits ⟨schema, some ⟨L.layout, L.first⟩, false⟩

/-- No field before the array leaves the body. -/
def Stays (depth : Nat) (v : Value) : Prop :=
  ∀ part rest, L.first = part ++ rest → ∀ out around scope s,
    Body.packFirst (candidate Γ (pack Γ depth)) v part (.writing L.layout v) ⟨out, around⟩ = .ok (scope, s) → scope.isExited = false

theorem wellFormed : L.layout.WellFormed := L.distinct

end LinkedCount

/-! ## Filling the window -/

/-- The window with the same bytes in both runs. -/
def Pairing.refill (P : Pairing) (content : Bytes) : Pairing := { P with window := .filled P.window.start content }

theorem Pairing.Pairs.refill {P : Pairing} {s t : Scope} (h : P.Pairs Γ s t) {content : Bytes}
    (hsize : content.size = P.window.left.size) : (P.refill content).Pairs Γ s t := by
  refine { h with linked := ?_ }
  have hstop : (P.refill content).window.stop = P.window.stop := congrArg (P.window.start + ·) hsize
  rw [hstop]
  exact h.linked

/-- A linked array fills the window of its count. -/
theorem link_fill {P : Pairing} {run : Schema → Value → Packing Unit} {count : String} {counter item : Candidate} {s t : Scope}
    (hpairs : P.Pairs Γ s t) (hcounter : s.fieldSchema? count = some counter) (hstart : s.offset? count = some P.window.start)
    {m m' : Bytes} (hsplits : P.window.Splits m m') {x : Value} {items : List Value} (hitems : Elements.ofValue x = pure items)
    {φ : Bytes → Prop}
    (hbytes : Both
      (fun a b => ∃ content, φ content ∧ content.size = P.window.left.size ∧ a = (content, ⟨m, some s⟩) ∧ b = (content, ⟨m', some t⟩))
      (Sibling.countBytes Γ run counter items.length ⟨m, some s⟩) (Sibling.countBytes Γ run counter items.length ⟨m', some t⟩))
    (hrun : ∀ content schema v, Γ.registry.resolve item = .ok schema → Tandem Γ (P.refill content) (run schema v)) :
    Both (fun a b => ∃ content, φ content ∧ content.size = P.window.left.size ∧ (P.refill content).After m (some s) (some t) a b)
      (Sibling.packLink Γ run count item x ⟨m, some s⟩) (Sibling.packLink Γ run count item x ⟨m', some t⟩) := by
  have hcounter' : t.fieldSchema? count = some counter := (hpairs.fieldSchema? count).trans hcounter
  have hstart' : t.offset? count = some P.window.start := (hpairs.offset? count).trans hstart
  rw [Sibling.packLink_eq hcounter hstart hitems, Sibling.packLink_eq hcounter' hstart' hitems]
  refine Walk.both_bind hbytes ?_
  rintro _ _ - ⟨content, hφ, hsize, rfl, rfl⟩
  have hfilled : (P.refill content).window.Splits (m.patch P.window.start content) (m'.patch P.window.start content) :=
    hsplits.fill hsize
  have helements : Tandem Γ (P.refill content) (Elements.pack Γ run item items items.length) :=
    (Tandem.compositional Γ _).elements (fun schema v hc => hrun content schema v hc) items _
  refine (helements _ _ _ _ hfilled (.body (hpairs.refill hsize))).mono ?_
  intro a b hafter
  refine ⟨content, hφ, hsize, { hafter with grows := Nat.le_trans ?_ hafter.grows }⟩
  rw [Bytes.size_patch]
  exact Nat.le_max_left _ _

/-! ## The body in two runs -/

/-- The two runs come together in the same output, with this content where the count starts. -/
inductive Meets (start : Nat) (content : Bytes) : Unit × WalkState Bytes → Unit × WalkState Bytes → Prop where
  | intro {s : WalkState Bytes} (h : s.medium.extract start (start + content.size) = content) : Meets start content ((), s) ((), s)

namespace LinkedCount

variable (L : LinkedCount Γ)

/-- Two values that differ in the count at most. Both take as many bytes there, and so does the number of elements, whose bytes have the
given property. -/
structure Twins (unread : String → Prop) (v v' : Value) (n width : Nat) (φ : Bytes → Prop) : Prop where
  read : ∀ field, ¬unread field → v'.get? field = v.get? field
  same : ∀ key, key ≠ L.count → v'.get? key = v.get? key
  opens : ∀ depth (P : Pairing) m s t, P.veil = L.veil Γ.registry unread → P.value = v → P.Pairs Γ s t →
    Both
      (fun a b => ∃ win : Window, win.left.size = width ∧ win.start = m.size ∧ a = ((), ⟨m ++ win.left, some s⟩) ∧
        b = ((), ⟨m ++ win.right, some t⟩))
      (candidate Γ (pack Γ depth) L.counter ((v.get? L.count).getD .null) ⟨m, some s⟩)
      (candidate Γ (pack Γ depth) L.counter ((v'.get? L.count).getD .null) ⟨m, some t⟩)
  fills : ∀ depth (P : Pairing) m m' s t, P.veil = L.veil Γ.registry unread → P.value = v → P.Pairs Γ s t →
    Both (fun a b => ∃ content, φ content ∧ content.size = width ∧ a = (content, ⟨m, some s⟩) ∧ b = (content, ⟨m', some t⟩))
      (Sibling.countBytes Γ (pack Γ depth) L.counter n ⟨m, some s⟩) (Sibling.countBytes Γ (pack Γ depth) L.counter n ⟨m', some t⟩)

variable {L} {unread : String → Prop} {v v' : Value} {items : List Value} {width : Nat} {φ : Bytes → Prop} {depth : Nat}

theorem Spares.tandem {P : Pairing} (hspares : L.Spares unread v) (hbody : P.body = some L.layout)
    (hveil : P.veil = L.veil Γ.registry unread) (hvalue : P.value = v) {pre post : Keyed Candidate} {key : String} {c : Candidate}
    (split : L.fields = pre ++ (key, c) :: post) (hkey : key ≠ L.array) (x : Value) : Tandem Γ P (candidate Γ (pack Γ depth) c x) := by
  refine tandem_field hbody L.plain split ?_ x
  rw [hveil, hvalue]
  exact fun schema hc => hspares.fields pre key c post schema split hkey hc

/-- The linked array fills the window with the number of elements. -/
theorem Twins.link (h : L.Twins unread v v' items.length width φ) (hspares : L.Spares unread v)
    (hitems : Elements.ofValue ((v.get? L.array).getD .null) = pure items) {win : Window} (hwidth : win.left.size = width)
    {s t : Scope} {m m' : Bytes} {around : Option Scope}
    (hreached : Reached Γ ⟨L.veil Γ.registry unread, win, some L.layout, v⟩ L.count around (s, ⟨m, around⟩) (t, ⟨m', around⟩)) :
    Both
      (fun a b => ∃ content, φ content ∧ content.size = width ∧
        (Pairing.refill ⟨L.veil Γ.registry unread, win, some L.layout, v⟩ content).After m (some (s.mark L.array m.size))
          (some (t.mark L.array m'.size)) a b)
      (candidate Γ (pack Γ depth) L.linked ((v.get? L.array).getD .null) ⟨m, some (s.mark L.array m.size)⟩)
      (candidate Γ (pack Γ depth) L.linked ((v'.get? L.array).getD .null) ⟨m', some (t.mark L.array m'.size)⟩) := by
  let P : Pairing := ⟨L.veil Γ.registry unread, win, some L.layout, v⟩
  obtain ⟨-, -, harray, -⟩ := CountedFields.count_not_mem L.wellFormed
  have hmark := hreached.pairs.mark L.array hreached.splits.stop_le
  have hlayout : s.layout = L.layout := (Option.some.inj hreached.pairs.body).symm
  obtain ⟨hcounter, hoffset⟩ := CountedFields.names_count L.wellFormed hlayout hreached.start m.size
  have hitem : ∀ depth content schema x, Γ.registry.resolve L.item = .ok schema →
      Tandem Γ (P.refill content) (pack Γ depth schema x) := by
    intro depth content schema x hc
    have harray : Site.Throughout Γ.registry .any (fun site => site.schema.isCustom = false)
        ⟨.link L.count L.item, some ⟨L.layout, L.first⟩, false⟩ := L.plain.of_runs (.field L.fields_eq L.links)
    exact pack_tandem depth (harray.of_runs (.linked hc)) (hspares.items schema hc) rfl (by rintro ⟨⟩) x
  rw [h.same _ harray.symm, hreached.splits.size_eq, Packing.candidate_eq L.links]
  cases depth with
  | zero => exact .stop _
  | succ depth =>
    subst hwidth
    exact link_fill hmark hcounter hoffset hreached.splits hitems (h.fills depth P m m' _ _ rfl rfl hmark) (hitem depth)

/-- The linked array and what comes behind it. -/
theorem Twins.meets (h : L.Twins unread v v' items.length width φ) (hspares : L.Spares unread v)
    (hitems : Elements.ofValue ((v.get? L.array).getD .null) = pure items) {win : Window} (hwidth : win.left.size = width)
    {around : Option Scope} {a b : Scope × WalkState Bytes}
    (hreached : Reached Γ ⟨L.veil Γ.registry unread, win, some L.layout, v⟩ L.count around a b) (hexit : a.1.isExited = false) :
    Both (fun a b => ∃ content, φ content ∧ content.size = width ∧ Meets win.start content a b)
      (Body.packFields (candidate Γ (pack Γ depth)) v ((L.array, L.linked) :: L.after) a.1 a.2)
      (Body.packFields (candidate Γ (pack Γ depth)) v' ((L.array, L.linked) :: L.after) b.1 b.2) := by
  let P : Pairing := ⟨L.veil Γ.registry unread, win, some L.layout, v⟩
  obtain ⟨s, m, _⟩ := a
  obtain ⟨t, m', _⟩ := b
  obtain ⟨rfl, hscope⟩ := hreached.around
  obtain rfl := hscope
  have hafter : ∀ content, ∀ pre key c post, L.after = pre ++ (key, c) :: post →
      Tandem Γ (P.refill content) (candidate Γ (pack Γ depth) c ((v.get? key).getD .null)) := by
    intro content pre key c post hsplit
    have hwhole : L.fields = (L.first ++ (L.array, L.linked) :: pre) ++ (key, c) :: post := by
      simp [L.fields_eq, hsplit]
    have hkey : key ≠ L.array := by
      rintro rfl
      refine (CountedFields.array_not_mem L.wellFormed).2 ?_
      rw [hsplit, Keyed.keys_append]
      exact List.mem_append_right _ List.mem_cons_self
    exact hspares.tandem rfl rfl rfl hwhole hkey _
  have hkeys : ∀ key, key ∈ Keyed.keys L.after → v'.get? key = v.get? key :=
    fun key hkey => h.same key fun heq => (CountedFields.count_not_mem L.wellFormed).2.2.2 (heq ▸ hkey)
  rw [Body.packFields_eq, Body.packFields_eq]
  refine Walk.both_bind (Body.both_packFirst_cons hexit (hreached.pairs.exited.trans hexit) (h.link hspares hitems hwidth hreached)
    (S := fun a b => ∃ content, φ content ∧ content.size = width ∧ Meets win.start content ((), a.2) ((), b.2)) ?_) ?_
  · rintro ⟨⟨⟩, m₁, inner⟩ ⟨⟨⟩, m₁', inner'⟩ ⟨content, hφ, hsize, hfilled⟩
    obtain ⟨fires, rfl, rfl⟩ := hfilled.leaves
    have hmark := (hreached.pairs.mark L.array hreached.splits.stop_le).refill (hsize.trans hwidth.symm)
    rw [hreached.splits.size_eq]
    refine (Tandem.packFirst (hafter content) hkeys (hmark.leave fires) hfilled.splits _ _).mono ?_
    rintro ⟨_, m₂, _⟩ ⟨_, m₂', _⟩ hbehind
    obtain ⟨rfl, rfl⟩ := hbehind.around
    obtain rfl : m₂ = m₂' := hbehind.splits.eq_of_same rfl
    exact ⟨content, hφ, hsize, .intro hbehind.splits.extract⟩
  · rintro a b - ⟨content, hφ, hsize, hmeets⟩
    exact .ok ⟨content, hφ, hsize, hmeets⟩

/-- Two runs of the fields before the array, which are the same but for the bytes of the count. -/
theorem Twins.reached (h : L.Twins unread v v' items.length width φ) (hspares : L.Spares unread v) (hstays : L.Stays depth v)
    (out : Bytes) (around : Option Scope) :
    Both
      (fun a b => ∃ win : Window, win.left.size = width ∧
        (∃ scope s, Body.packFirst (candidate Γ (pack Γ depth)) v L.before (.writing L.layout v) ⟨out, around⟩ = .ok (scope, s) ∧
          s.medium.size = win.start) ∧
        Reached Γ ⟨L.veil Γ.registry unread, win, some L.layout, v⟩ L.count around a b)
      (Body.packFirst (candidate Γ (pack Γ depth)) v L.first (.writing L.layout v) ⟨out, around⟩)
      (Body.packFirst (candidate Γ (pack Γ depth)) v' L.first (.writing L.layout v') ⟨out, around⟩) := by
  have harray : ∀ pre key c post, L.first = pre ++ (key, c) :: post → key ≠ L.array := by
    rintro pre _ c post hfirst rfl
    refine (CountedFields.array_not_mem L.wellFormed).1 ?_
    rw [hfirst, Keyed.keys_append]
    exact List.mem_append_right _ List.mem_cons_self
  have hbefore : ∀ pre key c post schema, L.before = pre ++ (key, c) :: post → Γ.registry.resolve c = .ok schema →
      Site.ThroughoutBody Γ.registry v (L.veil Γ.registry unread).Admits ⟨schema, some ⟨L.layout, pre⟩, false⟩ := by
    intro pre key c post schema hpre hc
    have hfirst : L.first = pre ++ (key, c) :: (post ++ (L.count, L.counter) :: L.between) := by
      simp [CountedFields.first, hpre]
    refine hspares.fields pre key c (post ++ (L.count, L.counter) :: (L.between ++ (L.array, L.linked) :: L.after)) schema ?_
      (harray pre key c _ hfirst) hc
    simp [CountedFields.fields, hpre]
  have hbetween : ∀ win pre key c post, L.between = pre ++ (key, c) :: post →
      Tandem Γ ⟨L.veil Γ.registry unread, win, some L.layout, v⟩ (candidate Γ (pack Γ depth) c ((v.get? key).getD .null)) := by
    intro win pre key c post hpre
    have hfirst : L.first = (L.before ++ (L.count, L.counter) :: pre) ++ (key, c) :: post := by
      simp [CountedFields.first, hpre]
    have hwhole : L.fields = (L.before ++ (L.count, L.counter) :: pre) ++ (key, c) :: (post ++ (L.array, L.linked) :: L.after) := by
      simp [CountedFields.fields, hpre]
    exact hspares.tandem rfl rfl rfl hwhole (harray _ key c post hfirst) _
  have hcount : ∀ key, key ∈ Keyed.keys L.before ∨ key ∈ Keyed.keys L.between → v'.get? key = v.get? key := by
    intro key hkey
    refine h.same key ?_
    rintro rfl
    rcases hkey with hkey | hkey
    · exact (CountedFields.count_not_mem L.wellFormed).1 hkey
    · exact (CountedFields.count_not_mem L.wellFormed).2.1 hkey
  have hsplit : L.first = (L.before ++ [(L.count, L.counter)]) ++ L.between := by
    simp [CountedFields.first]
  rw [hsplit, Body.packFirst_append (_ ++ [_]), Body.packFirst_append (_ ++ [_])]
  refine Walk.both_bind (exists_reached L.wellFormed L.plain rfl hbefore h.read (fun key hkey => hcount key (Or.inl hkey))
    (fun scope s => hstays _ _ rfl out around scope s) fun m s t hpairs => h.opens depth _ m s t rfl rfl hpairs) ?_
  rintro a b - ⟨win, hwidth, hstart, hreached⟩
  refine (hreached.packFirst (hbetween win) (fun key hkey => hcount key (Or.inr hkey)) (CountedFields.count_not_mem L.wellFormed).2.1).mono ?_
  exact fun a b hreached => ⟨win, hwidth, hstart, hreached⟩

/-- Two runs of the body, which come together at the linked array. -/
theorem Twins.packFields (h : L.Twins unread v v' items.length width φ) (hspares : L.Spares unread v) (hstays : L.Stays depth v)
    (hitems : Elements.ofValue ((v.get? L.array).getD .null) = pure items) (out : Bytes) (around : Option Scope) :
    Both
      (fun a b => ∃ scope s content,
        Body.packFirst (candidate Γ (pack Γ depth)) v L.before (.writing L.layout v) ⟨out, around⟩ = .ok (scope, s) ∧ φ content ∧
          content.size = width ∧ Meets s.medium.size content a b)
      (Body.packFields (candidate Γ (pack Γ depth)) v L.fields (.writing L.layout v) ⟨out, around⟩)
      (Body.packFields (candidate Γ (pack Γ depth)) v' L.fields (.writing L.layout v') ⟨out, around⟩) := by
  rw [L.fields_eq, Body.packFields_append, Body.packFields_append]
  refine Walk.both_bind (h.reached hspares hstays out around) ?_
  rintro a b hrun ⟨win, hwidth, ⟨scope, s, hbefore, hstart⟩, hreached⟩
  have hexit := hstays L.first [] (List.append_nil _).symm out around a.1 a.2 hrun
  refine (h.meets hspares hitems hwidth hreached hexit).mono ?_
  rintro a b ⟨content, hφ, hsize, hmeets⟩
  exact ⟨scope, s, content, hbefore, hφ, hsize, hstart ▸ hmeets⟩

end LinkedCount

/-! ## A count that is an integer -/

/-- Integers and null can be written as any integer kind. -/
theorem Number.exists_encode {kind : Number} (h : kind.isFloat = false) (order : ByteOrder) {v : Value}
    (hv : v = .null ∨ ∃ n, v = .int n) : ∃ run, kind.encode order v = .ok run := by
  rcases hv with rfl | ⟨n, rfl⟩
  · cases kind with
    | float32 | float64 => cases h
    | _ => exact ⟨_, rfl⟩
  · exact ⟨_, encode_int h order n⟩

/-- The bytes of a number, where they stand, are read as that number. -/
theorem Number.unpack_eq_decode {kind : Number} (order : ByteOrder) {data content : Bytes} {p : Nat} (hsize : content.size = kind.size)
    (h : data.extract p (p + content.size) = content) :
    kind.unpack order ⟨data, p⟩ = .ok (kind.decode order content.toList, ⟨data, p + kind.size⟩) := by
  have hfits : kind.size ≤ data.size - p := by
    have hlength := congrArg Array.size h
    have hpos := kind.size_pos
    rw [Array.size_extract] at hlength
    omega
  rw [hsize] at h
  simp only [unpack, Cursor.take, Bytes.slice, if_pos hfits, h]
  rfl

/-- Null and lists have elements. -/
theorem Elements.ofValue_eq {v : Value} {items : List Value} (h : v = .list items ∨ v = .null ∧ items = []) :
    ofValue v = pure items := by
  rcases h with rfl | ⟨rfl, rfl⟩ <;> rfl

/-- More elements than the count can store are not written. -/
theorem Sibling.packLink_overflow {run : Schema → Value → Packing Unit} {count : String} {counter item : Candidate} {kind : Number}
    (hkind : Γ.registry.resolve counter = .ok (.number kind)) {s : Scope} (hcounter : s.fieldSchema? count = some counter)
    {offset : Nat} (hoffset : s.offset? count = some offset) {x : Value} {items : List Value}
    (hitems : Elements.ofValue x = pure items) (hover : kind.maxCount < items.length) (out : Bytes) :
    packLink Γ run count item x ⟨out, some s⟩ = .error (.fault (.countOverflow items.length kind.name kind.maxCount)) := by
  rw [packLink_eq hcounter hoffset hitems, Walk.bind_apply, countBytes_number hkind, Number.packCount, if_pos hover]
  rfl

namespace LinkedCount

variable {L : LinkedCount Γ} {kind : Number} {fields : Keyed Value} {items : List Value} {depth : Nat}

/-- Another integer in the place of the count. -/
theorem twins_insert (hcounter : Γ.registry.resolve L.counter = .ok (.number kind)) (hint : kind.isFloat = false)
    (hown : (fields.lookup L.count).getD .null = .null ∨ ∃ n, (fields.lookup L.count).getD .null = .int n) (n : Nat) :
    L.Twins (· = L.count) (.record fields) (.record (Keyed.insert fields L.count (.ofCount n))) n kind.size
      fun content => n ≤ kind.maxCount ∧ kind.encode Γ.options.byteOrder (.ofCount n) = .ok content.toList := by
  have hsame : ∀ key, key ≠ L.count →
      (Value.record (Keyed.insert fields L.count (.ofCount n))).get? key = (Value.record fields).get? key := by
    intro key hkey
    rw [Value.get?, Keyed.lookup_insert, if_neg hkey]
    rfl
  refine ⟨hsame, hsame, ?_, ?_⟩
  · intro depth P m s t _ _ _
    have hnew : (Value.record (Keyed.insert fields L.count (.ofCount n))).get? L.count = some (.ofCount n) := by
      rw [Value.get?, Keyed.lookup_insert, if_pos rfl]
    obtain ⟨left, hleft⟩ := Number.exists_encode hint Γ.options.byteOrder hown
    obtain ⟨right, hright⟩ := Number.exists_encode hint Γ.options.byteOrder (v := .ofCount n) (Or.inr ⟨_, rfl⟩)
    rw [Packing.candidate_eq hcounter, Packing.candidate_eq hcounter, hnew]
    cases depth with
    | zero => exact .stop _
    | succ depth =>
      have hwidth := Number.length_of_encode hleft
      have hwidth' := Number.length_of_encode hright
      simp only [pack, packStep, Packing.number, onOutput, Number.pack_eq, Value.get?, hleft, hright, Option.getD_some]
      refine .ok ⟨⟨m.size, left.toArray, right.toArray, ?_⟩, ?_, rfl, rfl, rfl⟩
      · simp [hwidth, hwidth']
      · simp [hwidth]
  · intro depth P m m' s t _ _ _
    rw [Sibling.countBytes_number hcounter, Number.packCount]
    by_cases hover : kind.maxCount < n
    · rw [if_pos hover]
      exact .stop _
    · obtain ⟨run, hrun⟩ := Number.exists_encode hint Γ.options.byteOrder (v := .ofCount n) (Or.inr ⟨_, rfl⟩)
      rw [if_neg hover, Number.pack_eq, hrun]
      refine .ok ⟨_, ⟨Nat.le_of_not_lt hover, ?_⟩, ?_, rfl, rfl⟩
      · simp
      · simp [Number.length_of_encode hrun]

theorem pack_object (depth : Nat) (fields : Keyed Value) :
    pack Γ (depth + 1) (.object L.layout) (.record fields) =
      Body.packFields (candidate Γ (pack Γ depth)) (.record fields) L.fields (.writing L.layout (.record fields)) :=
  pure_bind _ _

/-- Once everything before the array is written, more elements than the count can store overflow. -/
theorem Twins.overflow {unread : String → Prop} {v v' : Value} {width : Nat} {φ : Bytes → Prop}
    (h : L.Twins unread v v' items.length width φ) (hspares : L.Spares unread v) (hstays : L.Stays depth v)
    (hitems : Elements.ofValue ((v.get? L.array).getD .null) = pure items)
    (hcounter : Γ.registry.resolve L.counter = .ok (.number kind)) (hover : kind.maxCount < items.length) {out : Bytes}
    {around : Option Scope} {scope : Scope} {s : WalkState Bytes}
    (hfirst : Body.packFirst (candidate Γ (pack Γ depth)) v L.first (.writing L.layout v) ⟨out, around⟩ = .ok (scope, s)) :
    Body.packFields (candidate Γ (pack Γ depth)) v L.fields (.writing L.layout v) ⟨out, around⟩ =
      .error (.fault (.countOverflow items.length kind.name kind.maxCount)) := by
  have hexit := hstays L.first [] (List.append_nil _).symm out around scope s hfirst
  have hreached := h.reached hspares hstays out around
  rw [hfirst] at hreached
  obtain ⟨_, -, win, -, -, hreached⟩ := hreached.exists_of_ok
  obtain ⟨m, around⟩ := s
  have hlayout : scope.layout = L.layout := (Option.some.inj hreached.pairs.body).symm
  obtain ⟨hschema, hoffset⟩ := CountedFields.names_count L.wellFormed hlayout hreached.start m.size
  cases depth with
  | zero => exact absurd hfirst (packFirst_zero L.first_ne_nil rfl _ _)
  | succ depth =>
    have hlink : pack Γ (depth + 1) (.link L.count L.item) ((v.get? L.array).getD .null) ⟨m, some (scope.mark L.array m.size)⟩ =
        .error (.fault (.countOverflow items.length kind.name kind.maxCount)) :=
      Sibling.packLink_overflow hcounter hschema hoffset hitems hover m
    rw [L.fields_eq, Body.packFields_append, Walk.bind_apply, hfirst]
    dsimp only
    rw [Body.packFields_eq, Walk.bind_apply, Body.packFirst_cons hexit, Packing.candidate_eq L.links, hlink]

/-- A count that stands first, right before its array, does not leave the body. -/
theorem stays_of_adjacent (hbefore : L.before = []) (hbetween : L.between = []) {stored : Schema}
    (hcounter : Γ.registry.resolve L.counter = .ok stored) {v : Value} (hstored : CountsAs Γ v stored kind) : L.Stays depth v := by
  intro part rest hsplit out around scope s h
  rw [CountedFields.first, hbefore, hbetween, List.nil_append] at hsplit
  rcases part with _ | ⟨entry, _ | ⟨_, _⟩⟩
  · cases h
    rfl
  · obtain ⟨rfl, -⟩ := List.cons.inj hsplit
    obtain ⟨result, -, hresult⟩ := hstored.exists_result depth ((v.get? L.count).getD .null)
    have hcount := hresult out ((Scope.writing L.layout v).mark L.count out.size) fun _ => rfl
    rw [Body.packFirst_cons rfl, Packing.candidate_eq hcounter, hcount] at h
    cases result with
    | error stop => cases h
    | ok bytes =>
      cases h
      rfl
  · cases hsplit

/-- A linked array writes the true count and nothing else. Let an object have a field for the count, which is an integer, and behind it an
array that is linked to it; let nothing else in the body read the count or link to it, other linked arrays name numbers, no field before
the array leave the body, and no kind defined by the user run inside. Whatever integer the value has for the count, or none, the object
is written as if it had the number of elements there. More elements than the count can store overflow, once everything before the
array is written. Otherwise the bytes of the count are read as the number of elements. -/
theorem pack_linkedCount (hcounter : Γ.registry.resolve L.counter = .ok (.number kind)) (hint : kind.isFloat = false)
    (hown : (fields.lookup L.count).getD .null = .null ∨ ∃ n, (fields.lookup L.count).getD .null = .int n)
    (hitems : (fields.lookup L.array).getD .null = .list items ∨ (fields.lookup L.array).getD .null = .null ∧ items = [])
    (hspares : L.Spares (· = L.count) (.record fields)) (hstays : L.Stays depth (.record fields)) (out : Bytes)
    (around : Option Scope) :
    pack Γ (depth + 1) (.object L.layout) (.record fields) ⟨out, around⟩ =
        pack Γ (depth + 1) (.object L.layout) (.record (Keyed.insert fields L.count (.ofCount items.length))) ⟨out, around⟩ ∧
      (kind.maxCount < items.length → ∀ scope s,
        Body.packFirst (candidate Γ (pack Γ depth)) (.record fields) L.first (.writing L.layout (.record fields)) ⟨out, around⟩ =
          .ok (scope, s) →
        pack Γ (depth + 1) (.object L.layout) (.record fields) ⟨out, around⟩ =
          .error (.fault (.countOverflow items.length kind.name kind.maxCount))) ∧
      ∀ s', pack Γ (depth + 1) (.object L.layout) (.record fields) ⟨out, around⟩ = .ok ((), s') →
        items.length ≤ kind.maxCount ∧ ∃ scope s,
          Body.packFirst (candidate Γ (pack Γ depth)) (.record fields) L.before (.writing L.layout (.record fields)) ⟨out, around⟩ =
            .ok (scope, s) ∧
          kind.unpack Γ.options.byteOrder ⟨s'.medium, s.medium.size⟩ =
            .ok (.ofCount items.length, ⟨s'.medium, s.medium.size + kind.size⟩) := by
  have htwins := twins_insert hcounter hint hown items.length
  have hboth := htwins.packFields hspares hstays (Elements.ofValue_eq hitems) out around
  rw [pack_object, pack_object]
  refine ⟨?_, ?_, ?_⟩
  · refine (hboth.mono ?_).eq
    rintro _ _ ⟨_, _, _, _, _, _, ⟨_⟩⟩
    rfl
  · intro hover scope s hfirst
    exact htwins.overflow hspares hstays (Elements.ofValue_eq hitems) hcounter hover hfirst
  · intro s' hpacked
    rw [hpacked] at hboth
    obtain ⟨_, -, scope, s, content, hbefore, ⟨hle, hencode⟩, hsize, ⟨hcontent⟩⟩ := hboth.exists_of_ok
    obtain ⟨run, hrun, -, hdecode⟩ := (Number.stores_count hint hle).exists_run Γ.options.byteOrder
    have hcount : run = content.toList := Except.ok.inj (hrun.symm.trans hencode)
    refine ⟨hle, scope, s, hbefore, ?_⟩
    rw [Number.unpack_eq_decode _ hsize hcontent, ← hcount, hdecode]
    rfl

end LinkedCount

namespace Packet

/-- The count of a packet and its words. -/
def linkedCount : LinkedCount context where
  before := []
  count := "count"
  counter := .number .uint8
  between := []
  array := "words"
  linked := .link "count" (.number .uint16)
  after := [("name", .cstring .auto)]
  item := .number .uint16
  links := rfl
  distinct := by decide
  plain := throughout rfl (fun _ => rfl) (fun _ => rfl) rfl fun _ => rfl

theorem linkedCount_spares (v : Value) : linkedCount.Spares (· = "count") v := by
  have hnumber : ∀ kind place, Site.ThroughoutBody context.registry v
      (linkedCount.veil context.registry (· = "count")).Admits ⟨.number kind, some place, false⟩ :=
    fun kind place => Site.throughoutBody_number trivial
  refine ⟨?_, fun schema hc => ?_⟩
  · intro pre key c post schema hsplit hkey hc
    rcases pre with _ | ⟨_, _ | ⟨_, _ | ⟨_, _⟩⟩⟩
    · cases hsplit
      cases hc
      exact hnumber _ _
    · cases hsplit
      exact absurd rfl hkey
    · cases hsplit
      cases hc
      exact Site.throughoutBody_intro trivial fun _ hr => nomatch hr.2
    · simp [linkedCount, CountedFields.fields] at hsplit
  · cases hc
    exact hnumber _ _

/-- The fields of the sample value, with another count. -/
def miscounted : Keyed Value := [("count", .int 7), ("words", .list [.int 1, .int 2]), ("name", .text "a")]

end Packet

/-- A packet of two words is written with the count 2, whatever the value says. -/
theorem LinkedCount.pack_linkedCount_packet :
    pack Packet.context 4 (.object Packet.linkedCount.layout) (.record Packet.miscounted) ⟨#[], none⟩ =
      pack Packet.context 4 (.object Packet.linkedCount.layout) Packet.value ⟨#[], none⟩ := by
  have hvalue : Value.record (Keyed.insert Packet.miscounted "count" (.ofCount [Value.int 1, Value.int 2].length)) = Packet.value := rfl
  rw [← hvalue]
  exact (pack_linkedCount (L := Packet.linkedCount) rfl rfl (Or.inr ⟨7, rfl⟩) (Or.inl rfl) (Packet.linkedCount_spares _)
    (stays_of_adjacent rfl rfl rfl (.number .uint8)) #[] none).1

end WireLayout
