import WireLayout.Proofs.Tandem

/-!
# Up to a count and past it

Two runs of a body that differ in the value of one field, a count. Before the count they write the same; the bytes of the count are a
window (`exists_reached`), and behind it they write the same again (`Reached.packFirst`). Numbers that stand before the count end
before it (`placed_packFirst`), so what other linked arrays write over them does not reach into the window.
-/

namespace WireLayout

/-- Every field of the body that is a number and was started ends within this many bytes. -/
def Scope.Placed (r : Registry) (s : Scope) (size : Nat) : Prop :=
  ∀ field counter kind offset, s.fieldSchema? field = some counter → r.resolve counter = .ok (.number kind) →
    s.offset? field = some offset → offset + kind.size ≤ size

/-- The next field, which ends where the output does if it is a number. -/
theorem Scope.Placed.next {r : Registry} {s : Scope} {size size' : Nat} (h : s.Placed r size) (hgrows : size ≤ size') {key : String}
    (hfield : ∀ counter kind, s.fieldSchema? key = some counter → r.resolve counter = .ok (.number kind) → size + kind.size ≤ size')
    (fires : Bool) : ((s.mark key size).leave fires).Placed r size' := by
  intro field counter kind offset hcounter hkind hoffset
  simp only [offset?, leave, mark, Keyed.lookup_insert] at hoffset
  split at hoffset
  · next hkey =>
    subst hkey
    cases hoffset
    exact hfield counter kind hcounter hkind
  · exact Nat.le_trans (h field counter kind offset hcounter hkind hoffset) hgrows

/-- A field has another key than those behind it. -/
theorem Layout.not_mem_keys_behind {layout : Layout} (hwf : layout.WellFormed) {before after : Keyed Candidate} {key : String}
    {c : Candidate} (split : layout.entries = before ++ (key, c) :: after) : key ∉ Keyed.keys after := by
  intro hmem
  obtain ⟨⟨key', c'⟩, hentry, heq⟩ := List.mem_map.mp hmem
  obtain ⟨pre, post, hafter⟩ := List.append_of_mem hentry
  have split' : layout.entries = (before ++ (key, c) :: pre) ++ (key', c') :: post := by
    simp [split, hafter]
  refine not_mem_keys_of_split hwf split' ?_
  rw [Keyed.keys_append]
  exact List.mem_append_right _ (heq ▸ List.mem_cons_self)

/-- Some fields are not read, and linked arrays name other fields than the count, which store numbers. -/
def Veil.covering (r : Registry) (layout : Layout) (count : String) (unread : String → Prop) : Veil where
  unread := unread
  unlinked field := ¬(field ≠ count ∧ ∃ c kind, layout.get? field = some c ∧ r.resolve c = .ok (.number kind))

namespace Codec

open Packing

variable {Γ : Context} {layout : Layout} {depth : Nat}

/-- A number is written in as many bytes as it is wide. -/
theorem pack_number_eq_ok {kind : Number} {v : Value} {out : Bytes} {scope : Option Scope} {r : Unit × WalkState Bytes}
    (h : pack Γ depth (.number kind) v ⟨out, scope⟩ = .ok r) :
    ∃ run, kind.encode Γ.options.byteOrder v = .ok run ∧ run.length = kind.size ∧ r = ((), ⟨out ++ run.toArray, scope⟩) := by
  cases depth with
  | zero => cases h
  | succ depth =>
    simp only [pack, packStep, Packing.number, onOutput, Number.pack_eq] at h
    cases hrun : kind.encode Γ.options.byteOrder v with
    | error fault =>
      rw [hrun] at h
      cases h
    | ok run =>
      rw [hrun] at h
      cases h
      exact ⟨run, rfl, Number.length_of_encode hrun, rfl⟩

/-- Without depth no field is written. -/
theorem packFirst_zero {v : Value} {entries : Keyed Candidate} (hentries : entries ≠ []) {scope : Scope}
    (hexit : scope.isExited = false) (s : WalkState Bytes) (r : Scope × WalkState Bytes) :
    Body.packFirst (candidate Γ (pack Γ 0)) v entries scope s ≠ .ok r := by
  rcases entries with _ | ⟨⟨key, c⟩, rest⟩
  · exact absurd rfl hentries
  · rw [Body.packFirst_cons hexit]
    cases hc : Γ.registry.resolve c with
    | error stop =>
      rw [Packing.candidate, Walk.resolve_bind_error hc]
      rintro ⟨⟩
    | ok schema =>
      rw [Packing.candidate_eq hc]
      rintro ⟨⟩

/-- A schema in a body adds to the output, and does no more to the body than to leave it. -/
theorem pack_keeps {schema : Schema} {place : Place} {isParsed : Bool}
    (hcustom : Site.Throughout Γ.registry .any (fun site => site.schema.isCustom = false) ⟨schema, some place, isParsed⟩) {s : Scope}
    (hlayout : s.layout = place.layout) {v : Value} {out : Bytes} {r : Unit × WalkState Bytes}
    (h : pack Γ depth schema v ⟨out, some s⟩ = .ok r) :
    out.size ≤ r.2.medium.size ∧ ∃ fires, r.2.scope = some (s.leave fires) := by
  let P : Pairing := ⟨.none, .closed, some place.layout, s.value⟩
  have hpairs : P.Pairs Γ s s := by
    refine ⟨congrArg some hlayout.symm, rfl, rfl, rfl, rfl, fun _ _ => rfl, ?_⟩
    exact fun _ offset _ _ => Or.inl (Nat.zero_le offset)
  have htandem : Tandem Γ P (pack Γ depth schema v) :=
    pack_tandem depth hcustom (fun site _ => Veil.none_admits site) rfl (fun _ => rfl) v
  have hboth := htandem out out (some s) (some s) (Window.Splits.refl_closed out) (.body hpairs)
  rw [h] at hboth
  obtain ⟨_, -, hafter⟩ := hboth.exists_of_ok
  obtain ⟨fires, hscope, -⟩ := hafter.leaves
  exact ⟨hafter.grows, fires, hscope⟩

/-- The numbers among the fields end within what is written. -/
theorem placed_packFirst (hwf : layout.WellFormed)
    (hcustom : Site.Throughout Γ.registry .any (fun site => site.schema.isCustom = false) (.top (.object layout))) {v : Value}
    {entries : Keyed Candidate} (hentries : ∀ entry ∈ entries, entry ∈ layout.entries) {s : Scope} (hlayout : s.layout = layout)
    {out : Bytes} (hplaced : s.Placed Γ.registry out.size) {around : Option Scope} {r : Scope × WalkState Bytes}
    (h : Body.packFirst (candidate Γ (pack Γ depth)) v entries s ⟨out, around⟩ = .ok r) :
    r.1.Placed Γ.registry r.2.medium.size := by
  induction entries generalizing s out with
  | nil =>
    cases h
    exact hplaced
  | cons entry rest ih =>
    obtain ⟨key, c⟩ := entry
    by_cases hexit : s.isExited = true
    · rw [Body.packFirst_exited hexit] at h
      cases h
      exact hplaced
    · rw [Body.packFirst_cons (by simpa using hexit)] at h
      cases hc : Γ.registry.resolve c with
      | error stop =>
        rw [Packing.candidate, Walk.resolve_bind_error hc] at h
        cases h
      | ok schema =>
        rw [Packing.candidate_eq hc] at h
        split at h
        · next out₁ inner hfield =>
          obtain ⟨pre, post, hsplit⟩ := List.append_of_mem (hentries _ List.mem_cons_self)
          have hmark : (s.mark key out.size).layout = layout := hlayout
          obtain ⟨hgrows, fires, hscope⟩ := pack_keeps (hcustom.of_runs (.field hsplit hc)) hmark hfield
          dsimp only at hgrows hscope
          subst hscope
          have hleave : ((s.mark key out.size).leave fires).layout = layout := hlayout
          refine ih (fun entry hentry => hentries entry (List.mem_cons_of_mem _ hentry)) hleave (hplaced.next hgrows ?_ fires) h
          intro counter kind hcounter hkind
          have hget : layout.get? key = some counter := hlayout ▸ hcounter
          rw [Layout.get?_of_split hwf hsplit] at hget
          obtain rfl := Option.some.inj hget
          obtain rfl := Except.ok.inj (hc.symm.trans hkind)
          obtain ⟨run, -, hlength, hr⟩ := pack_number_eq_ok hfield
          have hsize : out₁.size = out.size + run.length := by
            have hmedium := congrArg (fun result => result.2.medium.size) hr
            simpa using hmedium
          omega
        · cases h

/-- A field of a body does the same in two runs, where what runs in it looks at nothing behind the veil. -/
theorem tandem_field {P : Pairing} (hbody : P.body = some layout)
    (hcustom : Site.Throughout Γ.registry .any (fun site => site.schema.isCustom = false) (.top (.object layout)))
    {before after : Keyed Candidate} {key : String} {c : Candidate} (split : layout.entries = before ++ (key, c) :: after)
    (hveil : ∀ schema, Γ.registry.resolve c = .ok schema →
      Site.ThroughoutBody Γ.registry P.value P.veil.Admits ⟨schema, some ⟨layout, before⟩, false⟩) (v : Value) :
    Tandem Γ P (candidate Γ (pack Γ depth) c v) := by
  refine (Tandem.compositional Γ P).candidate ?_
  intro schema hc
  exact pack_tandem depth (hcustom.of_runs (.field split hc)) (hveil schema hc) hbody (by rintro ⟨⟩) v

/-- The count covers its window. What other linked arrays name stands in front. -/
theorem pairs_cover {count : String} {unread : String → Prop} {v : Value} {win : Window} {s t : Scope}
    (h : Pairing.Pairs Γ ⟨.covering Γ.registry layout count unread, .closed, some layout, v⟩ s t)
    (hplaced : s.Placed Γ.registry win.start) :
    Pairing.Pairs Γ ⟨.covering Γ.registry layout count unread, win, some layout, v⟩ (s.mark count win.start) (t.mark count win.start) := by
  refine { h.mark count (Nat.zero_le win.start) with linked := ?_ }
  intro field offset hfree hoffset
  obtain ⟨hother, c, kind, hget, hkind⟩ := Classical.not_not.mp hfree
  simp only [Scope.offset?, Scope.mark, Keyed.lookup_insert, if_neg hother] at hoffset
  have hschema : s.fieldSchema? field = some c := by
    have hlayout : s.layout = layout := (Option.some.inj h.body).symm
    rw [Scope.fieldSchema?, hlayout, hget]
  exact Or.inr ⟨c, kind, hschema, hkind, hplaced field c kind offset hschema hkind hoffset⟩

/-- Two runs behind the count: they are the same but for the window, which starts where the count is noted to start. -/
structure Reached (Γ : Context) (P : Pairing) (count : String) (around : Option Scope) (a b : Scope × WalkState Bytes) : Prop where
  pairs : P.Pairs Γ a.1 b.1
  splits : P.window.Splits a.2.medium b.2.medium
  around : a.2.scope = around ∧ b.2.scope = around
  start : a.1.offset? count = some P.window.start

/-- Fields behind the count. -/
theorem Reached.packFirst {P : Pairing} {count : String} {around : Option Scope} {a b : Scope × WalkState Bytes}
    (h : Reached Γ P count around a b) {run : Candidate → Value → Packing Unit} {entries : Keyed Candidate} {v v' : Value}
    (hrun : ∀ before key c after, entries = before ++ (key, c) :: after → Tandem Γ P (run c ((v.get? key).getD .null)))
    (hsame : ∀ key, key ∈ Keyed.keys entries → v'.get? key = v.get? key) (hcount : count ∉ Keyed.keys entries) :
    Both (Reached Γ P count around) (Body.packFirst run v entries a.1 a.2) (Body.packFirst run v' entries b.1 b.2) := by
  obtain ⟨s, out, _⟩ := a
  obtain ⟨t, out', _⟩ := b
  obtain ⟨rfl, hscope⟩ := h.around
  obtain rfl := hscope
  refine (Tandem.packFirst hrun hsame h.pairs h.splits _ _).mono ?_
  intro a b hbehind
  refine ⟨hbehind.pairs, hbehind.splits, hbehind.around, ?_⟩
  rw [hbehind.offset? count hcount]
  exact h.start

/-- The window that the count opens. -/
theorem exists_reached (hwf : layout.WellFormed)
    (hcustom : Site.Throughout Γ.registry .any (fun site => site.schema.isCustom = false) (.top (.object layout)))
    {before rest : Keyed Candidate} {count : String} {counter : Candidate}
    (split : layout.entries = before ++ (count, counter) :: rest) {unread : String → Prop} {v v' : Value}
    (hbefore : ∀ pre key c post schema, before = pre ++ (key, c) :: post → Γ.registry.resolve c = .ok schema →
      Site.ThroughoutBody Γ.registry v (Veil.covering Γ.registry layout count unread).Admits ⟨schema, some ⟨layout, pre⟩, false⟩)
    (hread : ∀ field, ¬unread field → v'.get? field = v.get? field)
    (hsame : ∀ key, key ∈ Keyed.keys before → v'.get? key = v.get? key)
    {out : Bytes} {around : Option Scope}
    (hstays : ∀ scope s, Body.packFirst (candidate Γ (pack Γ depth)) v before (.writing layout v) ⟨out, around⟩ = .ok (scope, s) →
      scope.isExited = false)
    {φ : Window → Prop}
    (hcount : ∀ m s t, Pairing.Pairs Γ ⟨.covering Γ.registry layout count unread, .closed, some layout, v⟩ s t →
      Both (fun a b => ∃ win, φ win ∧ win.start = m.size ∧ a = ((), ⟨m ++ win.left, some s⟩) ∧ b = ((), ⟨m ++ win.right, some t⟩))
        (candidate Γ (pack Γ depth) counter ((v.get? count).getD .null) ⟨m, some s⟩)
        (candidate Γ (pack Γ depth) counter ((v'.get? count).getD .null) ⟨m, some t⟩)) :
    Both
      (fun a b => ∃ win, φ win ∧
        (∃ scope s, Body.packFirst (candidate Γ (pack Γ depth)) v before (.writing layout v) ⟨out, around⟩ = .ok (scope, s) ∧
          s.medium.size = win.start) ∧
        Reached Γ ⟨.covering Γ.registry layout count unread, win, some layout, v⟩ count around a b)
      (Body.packFirst (candidate Γ (pack Γ depth)) v (before ++ [(count, counter)]) (.writing layout v) ⟨out, around⟩)
      (Body.packFirst (candidate Γ (pack Γ depth)) v' (before ++ [(count, counter)]) (.writing layout v') ⟨out, around⟩) := by
  let P : Pairing := ⟨.covering Γ.registry layout count unread, .closed, some layout, v⟩
  have hpairs : P.Pairs Γ (.writing layout v) (.writing layout v') :=
    ⟨rfl, rfl, rfl, rfl, rfl, hread, fun _ offset _ _ => Or.inl (Nat.zero_le offset)⟩
  have hfield : ∀ pre key c post, before = pre ++ (key, c) :: post →
      Tandem Γ P (candidate Γ (pack Γ depth) c ((v.get? key).getD .null)) := by
    intro pre key c post hsplit
    have hwhole : layout.entries = pre ++ (key, c) :: (post ++ (count, counter) :: rest) := by
      rw [split, hsplit, List.append_assoc]
      rfl
    exact tandem_field rfl hcustom hwhole (fun schema hc => hbefore pre key c post schema hsplit hc) _
  rw [Body.packFirst_append, Body.packFirst_append]
  refine Walk.both_bind (Tandem.packFirst hfield hsame hpairs (Window.Splits.refl_closed out) around around) ?_
  rintro ⟨s, m, _⟩ ⟨t, m', _⟩ hrun hbehind
  obtain ⟨rfl, rfl⟩ := hbehind.around
  obtain rfl : m = m' := hbehind.splits.eq_of_same rfl
  have hplaced : s.Placed Γ.registry m.size := by
    refine placed_packFirst hwf hcustom ?_ rfl ?_ hrun
    · intro entry hentry
      rw [split]
      exact List.mem_append_left _ hentry
    · intro _ _ _ _ _ _ hnone
      cases hnone
  have hexit := hstays s _ hrun
  have hopened := hcount m _ _ (hbehind.pairs.mark count (Nat.zero_le m.size))
  refine Body.both_packFirst_cons hexit (hbehind.pairs.exited.trans hexit) hopened ?_
  rintro _ _ ⟨⟨start, left, right, same⟩, hφ, rfl, rfl, rfl⟩
  refine .ok ⟨_, hφ, ⟨s, _, hrun, rfl⟩, pairs_cover hbehind.pairs hplaced, .new m same, ⟨rfl, rfl⟩, ?_⟩
  simp [Scope.offset?, Scope.mark, Keyed.lookup_insert]

end Codec

/-! ## Schemas that count -/

open Packing Codec

variable {Γ : Context}

/-- A schema that writes one number, in a body of this value. -/
inductive CountsAs (Γ : Context) (v : Value) : Schema → Number → Prop where
  | number (kind : Number) : CountsAs Γ v (.number kind) kind
  | enums {names : List (String × Int64)} {base : Candidate} {kind : Number} (resolved : Γ.registry.resolve base = .ok (.number kind)) :
      CountsAs Γ v (.enums names base) kind
  | depend {field : String} {selector : Selector} {w : Value} {c : Candidate} {schema : Schema} {kind : Number}
      (seen : v.get? field = some w) (selects : selector.select w = .ok c) (resolved : Γ.registry.resolve c = .ok schema)
      (counts : CountsAs Γ v schema kind) : CountsAs Γ v (.depend field selector) kind

/-- A number appends bytes that do not depend on the output, and an integer that stands for the value gives these bytes as well. -/
theorem Packing.exists_number_result (kind : Number) {x y : Value} (hy : ∀ n, x = .int n → y = .int n) :
    ∃ result : Except Stop Bytes,
      (∀ bytes, result = .ok bytes → bytes.size = kind.size ∧
        ∀ n, x = .int n → kind.encode Γ.options.byteOrder (.int n) = .ok bytes.toList) ∧
      ∀ m scope, Packing.number Γ kind y ⟨m, scope⟩ = result.map fun bytes => ((), ⟨m ++ bytes, scope⟩) := by
  simp only [Packing.number, onOutput, Number.pack_eq]
  cases hrun : kind.encode Γ.options.byteOrder y with
  | error fault => exact ⟨.error (.fault fault), by rintro _ ⟨⟩, fun _ _ => rfl⟩
  | ok run =>
    refine ⟨.ok run.toArray, ?_, fun _ _ => rfl⟩
    rintro _ ⟨⟩
    refine ⟨Number.length_of_encode hrun, ?_⟩
    intro n hn
    rw [← hy n hn, hrun]

/-- What a schema that counts writes does not depend on the output, and an integer is written as the number does. -/
theorem CountsAs.exists_result {v : Value} {schema : Schema} {kind : Number} (h : CountsAs Γ v schema kind) (depth : Nat) (x : Value) :
    ∃ result : Except Stop Bytes,
      (∀ bytes, result = .ok bytes → bytes.size = kind.size ∧
        ∀ n, x = .int n → kind.encode Γ.options.byteOrder (.int n) = .ok bytes.toList) ∧
      ∀ m (s : Scope), (∀ field, s.field? field = v.get? field) →
        pack Γ depth schema x ⟨m, some s⟩ = result.map fun bytes => ((), ⟨m ++ bytes, some s⟩) := by
  induction h generalizing depth with
  | number kind =>
    cases depth with
    | zero => exact ⟨.error .exhausted, by rintro _ ⟨⟩, fun _ _ _ => rfl⟩
    | succ depth =>
      obtain ⟨result, hbytes, hresult⟩ := exists_number_result (Γ := Γ) kind fun _ (h : x = _) => h
      exact ⟨result, hbytes, fun m s _ => hresult m (some s)⟩
  | @enums names base kind hbase =>
    cases depth with
    | zero => exact ⟨.error .exhausted, by rintro _ ⟨⟩, fun _ _ _ => rfl⟩
    | succ depth =>
      cases hy : Enumeration.numberOf names x with
      | error fault =>
        refine ⟨.error (.fault fault), by rintro _ ⟨⟩, fun m s _ => ?_⟩
        show Enumeration.pack Γ names base x ⟨m, some s⟩ = _
        rw [Enumeration.pack, Walk.resolveNumber_eq_pure hbase, pure_bind, hy]
        rfl
      | ok y =>
        have hint : ∀ n, x = .int n → y = .int n := by
          rintro n rfl
          exact (Except.ok.inj hy).symm
        obtain ⟨result, hbytes, hresult⟩ := exists_number_result (Γ := Γ) kind hint
        refine ⟨result, hbytes, fun m s _ => ?_⟩
        rw [← hresult, ← Enumeration.pack_eq hbase hy]
        rfl
  | @depend field selector w c schema kind hseen hselects hc _ ih =>
    cases depth with
    | zero => exact ⟨.error .exhausted, by rintro _ ⟨⟩, fun _ _ _ => rfl⟩
    | succ depth =>
      obtain ⟨result, hbytes, hresult⟩ := ih depth
      refine ⟨result, hbytes, fun m s hs => ?_⟩
      rw [← hresult m s hs]
      exact Sibling.packDepend_apply ((hs field).trans hseen) hselects hc x m

/-- Nor does the count that such a schema stores, which a number admits. -/
theorem CountsAs.exists_count {v : Value} {schema : Schema} {kind : Number} (h : CountsAs Γ v schema kind) {counter : Candidate}
    (hcounter : Γ.registry.resolve counter = .ok schema) (depth n : Nat) :
    ∃ result : Except Stop Bytes,
      (∀ bytes, result = .ok bytes → bytes.size = kind.size ∧
        kind.encode Γ.options.byteOrder (.ofCount n) = .ok bytes.toList ∧ (schema = .number kind → n ≤ kind.maxCount)) ∧
      ∀ m (s : Scope), (∀ field, s.field? field = v.get? field) →
        Sibling.countBytes Γ (pack Γ depth) counter n ⟨m, some s⟩ = result.map fun bytes => (bytes, ⟨m, some s⟩) := by
  -- A schema that is no number is written as any value, on an output of its own.
  have hcollect : (∀ kind, schema ≠ .number kind) →
      Sibling.countBytes Γ (pack Γ depth) counter n = collect (pack Γ depth schema (.ofCount n)) →
      ∃ result : Except Stop Bytes,
        (∀ bytes, result = .ok bytes → bytes.size = kind.size ∧
          kind.encode Γ.options.byteOrder (.ofCount n) = .ok bytes.toList ∧ (schema = .number kind → n ≤ kind.maxCount)) ∧
        ∀ m (s : Scope), (∀ field, s.field? field = v.get? field) →
          Sibling.countBytes Γ (pack Γ depth) counter n ⟨m, some s⟩ = result.map fun bytes => (bytes, ⟨m, some s⟩) := by
    intro hother heq
    obtain ⟨result, hbytes, hresult⟩ := h.exists_result depth (.ofCount n)
    refine ⟨result, fun bytes hok => ?_, fun m s hs => ?_⟩
    · obtain ⟨hsize, hencode⟩ := hbytes bytes hok
      exact ⟨hsize, hencode _ rfl, fun hnumber => absurd hnumber (hother kind)⟩
    · rw [heq]
      simp only [collect, Walk.bind_apply, Walk.aside, hresult #[] s hs]
      cases result with
      | error stop => rfl
      | ok bytes => simp [Except.map]
  cases h with
  | number =>
    rw [Sibling.countBytes_number hcounter, Number.packCount]
    by_cases hover : kind.maxCount < n
    · rw [if_pos hover]
      exact ⟨.error _, by rintro _ ⟨⟩, fun _ _ _ => rfl⟩
    · rw [if_neg hover, Number.pack_eq]
      cases hrun : kind.encode Γ.options.byteOrder (.ofCount n) with
      | error fault => exact ⟨.error _, by rintro _ ⟨⟩, fun _ _ _ => rfl⟩
      | ok run =>
        refine ⟨.ok (#[] ++ run.toArray), ?_, fun _ _ _ => rfl⟩
        rintro _ ⟨⟩
        refine ⟨?_, ?_, fun _ => Nat.le_of_not_lt hover⟩
        · simp [Number.length_of_encode hrun]
        · simp
  | enums hbase => exact hcollect (by rintro _ ⟨⟩) (by rw [Sibling.countBytes, Walk.resolve_bind_ok hcounter])
  | depend hseen hselects hc hcounts => exact hcollect (by rintro _ ⟨⟩) (by rw [Sibling.countBytes, Walk.resolve_bind_ok hcounter])

end WireLayout
