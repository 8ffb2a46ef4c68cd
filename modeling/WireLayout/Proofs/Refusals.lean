import WireLayout.Proofs.Faults

/-!
# Data that builds schemas

A dependent field builds its schema from a value that was read before. What is wrong with that value is wrong with the data, but it
shows up as a fault of the schema that cannot be built: a label that is no case is an unregistered schema, and a negative number, or a
list, that should be a count is an invalid argument. A text that should be a count is taken for the name of a number in front, and so
the data name a schema. `Refuses` lists these faults, and whatever else goes wrong while bodies of tagged data are read is a fault of
the data (`unpack_tagged`).
-/

namespace WireLayout

open Codec

namespace Selector

/-- The elements of an array, counted by the value that is seen. -/
def counting (item : Candidate) : Selector := .application .array [.schema item]

theorem select_cases (pairs : List (Value × Candidate)) (v : Value) : (cases pairs).select v = Builder.casesOf pairs v := by
  show ((Builder.casesOf pairs v >>= fun c => pure (Applied.complete c)) >>= Applied.candidate) = _
  cases Builder.casesOf pairs v <;> rfl

theorem select_counting (item : Candidate) (v : Value) :
    (counting item).select v = ((Argument.value v).count .array).map fun count => .array item count := by
  show (((Argument.value v).count .array >>= fun count => pure (.array item count)) >>= fun c => pure (Applied.complete c)) >>=
    Applied.candidate = _
  cases (Argument.value v).count .array <;> rfl

end Selector

/-- Tagged data: numbers, texts and arrays behind counts that are numbers, one of several cases by a label, and elements behind a
count that is a field of its own. All that is named is registered. -/
inductive Schema.Tagged (r : Registry) : Schema → Prop where
  | number (kind : Number) : Tagged r (.number kind)
  | string {size : Count} : size.IsNumeric r → Tagged r (.string size)
  | array {item : Candidate} {count : Count} {schema : Schema} : r.resolve item = .ok schema → Tagged r schema →
      count.IsNumeric r → Tagged r (.array item count)
  | cases {field : String} {pairs : List (Value × Candidate)} (arm : Value × Candidate → Schema) :
      (∀ pair ∈ pairs, r.resolve pair.2 = .ok (arm pair)) → (∀ pair ∈ pairs, Tagged r (arm pair)) →
      Tagged r (.depend field (.cases pairs))
  | counted {field : String} {item : Candidate} {schema : Schema} : r.resolve item = .ok schema → Tagged r schema →
      Tagged r (.depend field (.counting item))

/-- Values that no schema can be built from, or none that can run, and the faults that they give. -/
inductive Unusable (r : Registry) : Selector → Value → Fault → Prop where
  | label {pairs : List (Value × Candidate)} {v : Value} : (∀ pair ∈ pairs, pair.1.looselyEq v = false) →
      Unusable r (.cases pairs) v (.unregisteredSchema ("cases(" ++ v.literal ++ ")"))
  | number {item : Candidate} {v : Value} : v.isNumber = true → v.count? = none →
      Unusable r (.counting item) v (.invalidArgument "array" ("bad count " ++ v.literal))
  | list {item : Candidate} {items : List Value} :
      Unusable r (.counting item) (.list items) (.invalidArgument "array" ("expected a count, found " ++ (Value.list items).literal))
  | record {item : Candidate} {fields : Keyed Value} :
      Unusable r (.counting item) (.record fields)
        (.invalidArgument "array" ("expected a count, found " ++ (Value.record fields).literal))
  | unknown {item : Candidate} {name : String} {fault : Fault} : r.resolve (.name name) = .error (.fault fault) →
      Unusable r (.counting item) (.text name) fault
  | notNumeric {item : Candidate} {name : String} {schema : Schema} : r.resolve (.name name) = .ok schema →
      (∀ kind, schema ≠ .number kind) → Unusable r (.counting item) (.text name) (Count.notNumeric schema)

/-- Faults of a schema that come from values which a body shows, at any depth of what is selected there. -/
inductive Refuses (r : Registry) (found : String → Option Value) : Schema → Fault → Prop where
  | here {field : String} {selector : Selector} {v : Value} {fault : Fault} : found field = some v → Unusable r selector v fault →
      Refuses r found (.depend field selector) fault
  | selected {field : String} {selector : Selector} {v : Value} {c : Candidate} {schema : Schema} {fault : Fault} :
      found field = some v → selector.select v = .ok c → r.resolve c = .ok schema → Refuses r found schema fault →
      Refuses r found (.depend field selector) fault
  | item {item : Candidate} {count : Count} {schema : Schema} {fault : Fault} : r.resolve item = .ok schema →
      Refuses r found schema fault → Refuses r found (.array item count) fault

/-! ## What is selected -/

section

variable {r : Registry}

/-- A label is a case, or unusable. -/
theorem casesOf_or (pairs : List (Value × Candidate)) (v : Value) :
    (∃ pair ∈ pairs, Builder.casesOf pairs v = .ok pair.2) ∨
      ∃ fault, Builder.casesOf pairs v = .error fault ∧ Unusable r (.cases pairs) v fault := by
  unfold Builder.casesOf
  cases hfind : pairs.find? fun pair => pair.1.looselyEq v with
  | some pair => exact .inl ⟨pair, List.mem_of_find?_eq_some hfind, rfl⟩
  | none => exact .inr ⟨_, rfl, .label fun pair hpair => by simpa using List.find?_eq_none.mp hfind pair hpair⟩

/-- A number that is no count is refused. -/
theorem Argument.count_bad {v : Value} (hv : v.isNumber = true) (hcount : v.count? = none) :
    (Argument.value v).count .array = .error (.invalidArgument "array" ("bad count " ++ v.literal)) := by
  cases v <;> first | (simp only [Argument.count, hv, hcount, if_true]; rfl) | cases hv

/-- A value is a count, or the name of a number in front, or unusable. -/
theorem count_or (item : Candidate) (v : Value) :
    (∃ count, (Argument.value v).count .array = .ok count ∧ (count.IsNumeric r ∨
        ∃ name, v = .text name ∧ count = .prefixed (.name name) ∧ ∀ kind, r.resolve (.name name) ≠ .ok (.number kind))) ∨
      ∃ fault, (Argument.value v).count .array = .error fault ∧ Unusable r (.counting item) v fault := by
  have fixed : ∀ n, v.isNumber = true → v.count? = some n → (Argument.value v).count .array = .ok (.fixed n) := by
    intro n hv hcount
    cases v <;> first | (simp only [Argument.count, hcount]; rfl) | cases hv
  have counted : v.isNumber = true → (∃ count, (Argument.value v).count .array = .ok count ∧ count.IsNumeric r) ∨
      ∃ fault, (Argument.value v).count .array = .error fault ∧ Unusable r (.counting item) v fault := by
    intro hv
    cases hcount : v.count? with
    | some n => exact .inl ⟨.fixed n, fixed n hv hcount, trivial⟩
    | none => exact .inr ⟨_, Argument.count_bad hv hcount, .number hv hcount⟩
  have widened : (∃ count, (Argument.value v).count .array = .ok count ∧ count.IsNumeric r) →
      ∃ count, (Argument.value v).count .array = .ok count ∧ (count.IsNumeric r ∨
        ∃ name, v = .text name ∧ count = .prefixed (.name name) ∧ ∀ kind, r.resolve (.name name) ≠ .ok (.number kind)) := by
    rintro ⟨count, hcount, numeric⟩
    exact ⟨count, hcount, .inl numeric⟩
  cases v with
  | null => exact .inl ⟨.auto, rfl, .inl trivial⟩
  | int n => exact (counted rfl).imp_left widened
  | float x => exact (counted rfl).imp_left widened
  | text name =>
    refine .inl ⟨.prefixed (.name name), rfl, ?_⟩
    by_cases named : ∃ kind, r.resolve (.name name) = .ok (.number kind)
    · exact .inl named
    · exact .inr ⟨name, rfl, rfl, fun kind hkind => named ⟨kind, hkind⟩⟩
  | list items => exact .inr ⟨_, rfl, .list⟩
  | record fields => exact .inr ⟨_, rfl, .record⟩

end

/-! ## What is read -/

variable {Γ : Context} {found : String → Option Value}

/-- An array behind the name of no number ends in a fault that names it. -/
theorem unpack_unnamed {item : Candidate} {name : String} (unnamed : ∀ kind, Γ.registry.resolve (.name name) ≠ .ok (.number kind))
    (depth : Nat) {s : WalkState Cursor} {fault : Fault}
    (h : unpack Γ depth (.array item (.prefixed (.name name))) s = .error (.fault fault)) :
    Unusable Γ.registry (.counting item) (.text name) fault := by
  cases depth with
  | zero => cases h
  | succ depth =>
    have hcount : (Walk.resolveNumber Γ (.name name) Count.notNumeric >>= fun kind => Unpacking.number Γ kind >>= fun v =>
        Count.ofValue v >>= fun n => Elements.unpack Γ (unpack Γ depth) item (some n)) s = .error (.fault fault) := by
      have hstep : Elements.unpackArray Γ (unpack Γ depth) item (.prefixed (.name name)) s = .error (.fault fault) := h
      simpa only [Elements.unpackArray, Count.unpack, bind_assoc, pure_bind] using hstep
    cases hc : Γ.registry.resolve (.name name) with
    | error stop =>
      rw [Walk.resolveNumber, bind_assoc, Walk.resolve_bind_error hc] at hcount
      cases hcount
      exact .unknown hc
    | ok schema =>
      rw [Walk.resolveNumber, bind_assoc, Walk.resolve_bind_ok hc] at hcount
      cases schema with
      | number kind => exact absurd hc (unnamed kind)
      | _ =>
        cases hcount
        refine .notNumeric hc fun kind other => ?_
        cases other

/-- Reading tagged data ends in faults of the data, or of a schema that is built from the data. -/
theorem faults_tagged (depth : Nat) {schema : Schema} (tagged : schema.Tagged Γ.registry) :
    Walk.FaultsIn found (fun fault => fault.kind = .data ∨ Refuses Γ.registry found schema fault) (unpack Γ depth schema) := by
  induction depth generalizing schema with
  | zero => exact .giveUp
  | succ depth ih =>
    have hdata : ∀ fault : Fault, fault.kind = .data → fault.kind = .data ∨ Refuses Γ.registry found schema fault :=
      fun _ => .inl
    cases tagged with
    | number kind => exact Unpacking.faults_number hdata kind
    | string numeric => exact Unpacking.faults_text hdata numeric
    | @array item count inner resolved hinner numeric =>
      refine (Unpacking.faults_count hdata numeric).bind (Unpacking.composable_moves.count count) fun n => ?_
      refine Unpacking.faults_elements hdata resolved ?_ (unpack_leaves depth inner) n
      exact (ih hinner).imp fun fault h => h.imp_right (.item resolved)
    | @cases field pairs arm resolved harm =>
      refine .sibling (.inl rfl) fun v shown => ?_
      rw [Selector.select_cases]
      rcases casesOf_or pairs v with ⟨pair, hpair, selects⟩ | ⟨fault, selects, unusable⟩
      · have select : (Selector.cases pairs).select v = .ok pair.2 := (Selector.select_cases pairs v).trans selects
        rw [selects]
        show Walk.FaultsIn found _ (Unpacking.candidate Γ (unpack Γ depth) pair.2)
        rw [Unpacking.candidate_eq (resolved pair hpair)]
        exact (ih (harm pair hpair)).imp fun fault h => h.imp_right (.selected shown select (resolved pair hpair))
      · rw [selects]
        exact .fail (.inr (.here shown unusable))
    | @counted field item inner resolved hinner =>
      refine .sibling (.inl rfl) fun v shown => ?_
      rw [Selector.select_counting]
      rcases count_or item v with ⟨count, counts, numeric⟩ | ⟨fault, counts, unusable⟩
      · have select : (Selector.counting item).select v = .ok (.array item count) := by
          rw [Selector.select_counting, counts]
          rfl
        rw [counts]
        show Walk.FaultsIn found _ (unpack Γ depth (.array item count))
        rcases numeric with numeric | ⟨name, rfl, rfl, unnamed⟩
        · have elements := ih (.array resolved hinner numeric)
          exact elements.imp fun fault h => h.imp_right (.selected shown select rfl)
        · intro medium scope fault _ hstep
          exact .inr (.here shown (unpack_unnamed unnamed depth hstep))
      · rw [counts]
        exact .fail (.inr (.here shown unusable))

/-! ## Bodies of tagged data -/

/-- All of these are faults of the schema. -/
theorem Unusable.kind {r : Registry} {selector : Selector} {v : Value} {fault : Fault} (h : Unusable r selector v fault) :
    fault.kind = .schema := by
  cases h with
  | unknown resolved =>
    rw [Registry.resolve_eq_fault resolved]
    rfl
  | _ => rfl

/-- A field that depends on an unusable value fails with the fault of that value. -/
theorem unpack_unusable {field : String} {selector : Selector} {v : Value} {fault : Fault}
    (unusable : Unusable Γ.registry selector v fault) {scope : Scope} (shown : scope.field? field = some v) (depth : Nat) (cursor : Cursor) :
    unpack Γ (depth + 2) (.depend field selector) ⟨cursor, some scope⟩ = .error (.fault fault) := by
  show Sibling.unpackDepend Γ (unpack Γ (depth + 1)) field selector ⟨cursor, some scope⟩ = _
  have sibling : (Walk.sibling "depend" field : Unpacking Value) ⟨cursor, some scope⟩ = .ok (v, ⟨cursor, some scope⟩) :=
    Walk.sibling_eq_ok.mpr ⟨scope, rfl, shown, rfl⟩
  rw [Sibling.unpackDepend, Walk.bind_apply, sibling]
  -- What cannot be built fails when it is selected, and the name of no number when it is run.
  have unbuilt : selector.select v = .error fault → (Walk.ofExcept (selector.select v) >>= fun selected =>
      Unpacking.candidate Γ (unpack Γ (depth + 1)) selected) ⟨cursor, some scope⟩ = .error (.fault fault) := by
    intro selects
    rw [selects]
    rfl
  have named : ∀ {item name}, selector = .counting item → v = .text name →
      (Walk.resolveNumber Γ (.name name) Count.notNumeric : Unpacking Number) ⟨cursor, some scope⟩ = .error (.fault fault) →
      (Walk.ofExcept (selector.select v) >>= fun selected =>
        Unpacking.candidate Γ (unpack Γ (depth + 1)) selected) ⟨cursor, some scope⟩ = .error (.fault fault) := by
    rintro item name rfl rfl hnumber
    rw [Selector.select_counting]
    show Elements.unpackArray Γ (unpack Γ depth) item (.prefixed (.name name)) ⟨cursor, some scope⟩ = _
    rw [Elements.unpackArray, Count.unpack, bind_assoc, Walk.bind_apply, hnumber]
  cases unusable with
  | label noCase =>
    refine unbuilt ?_
    have find : List.find? (fun pair : Value × Candidate => pair.1.looselyEq v) _ = none :=
      List.find?_eq_none.mpr fun pair hpair => by simpa using noCase pair hpair
    rw [Selector.select_cases, Builder.casesOf, find]
  | number hnumber hcount =>
    refine unbuilt ?_
    rw [Selector.select_counting, Argument.count_bad hnumber hcount]
    rfl
  | list => exact unbuilt rfl
  | record => exact unbuilt rfl
  | unknown resolved =>
    refine named rfl rfl ?_
    rw [Walk.resolveNumber, Walk.resolve_bind_error resolved]
    rfl
  | @notNumeric item name schema resolved other =>
    refine named rfl rfl ?_
    rw [Walk.resolveNumber, Walk.resolve_bind_ok resolved]
    cases schema with
    | number kind => exact absurd rfl (other kind)
    | _ => rfl

/-- Reading a body of tagged data. Where it fails, the fault is one of the data, or the first field that cannot be read has a schema
that is built from values which were read before, and these cannot be used for it. And where a field is reached that depends on such a
value, reading fails with the fault of that value, which is one of the schema. -/
theorem unpack_tagged {layout : Layout}
    (tagged : ∀ key c, (key, c) ∈ layout.entries → ∃ schema, Γ.registry.resolve c = .ok schema ∧ schema.Tagged Γ.registry)
    (depth : Nat) :
    (∀ s fault, unpack Γ (depth + 1) (.object layout) s = .error (.fault fault) → fault.kind = .data ∨
      ∃ before key c after schema scope s', layout.entries = before ++ (key, c) :: after ∧ Γ.registry.resolve c = .ok schema ∧
        Body.unpackFields (Unpacking.candidate Γ (unpack Γ depth)) before (.reading layout) s = .ok (scope, s') ∧
        scope.isExited = false ∧ Refuses Γ.registry scope.field? schema fault) ∧
    ∀ s before key c after field selector scope s' v fault, layout.entries = before ++ (key, c) :: after →
      Γ.registry.resolve c = .ok (.depend field selector) →
      Body.unpackFields (Unpacking.candidate Γ (unpack Γ (depth + 2))) before (.reading layout) s = .ok (scope, s') →
      scope.isExited = false → scope.field? field = some v → Unusable Γ.registry selector v fault →
      unpack Γ (depth + 3) (.object layout) s = .error (.fault fault) ∧ fault.kind = .schema := by
  constructor
  · intro s fault h
    have fields : Body.unpackFields (Unpacking.candidate Γ (unpack Γ depth)) layout.entries (.reading layout) s =
        .error (.fault fault) := by
      have object : Body.unpackObject (Unpacking.candidate Γ (unpack Γ depth)) layout s = .error (.fault fault) := h
      rw [Body.unpackObject, Walk.bind_apply] at object
      cases hfields : Body.unpackFields (Unpacking.candidate Γ (unpack Γ depth)) layout.entries (.reading layout) s with
      | ok result =>
        rw [hfields] at object
        cases object
      | error stop =>
        rw [hfields] at object
        cases object
        rfl
    obtain ⟨before, key, c, after, scope, s', split, hread, hopen, hfail⟩ := Body.unpackFields_eq_error fields
    obtain ⟨schema, resolved, htagged⟩ := tagged key c (by rw [split]; exact List.mem_append_right _ List.mem_cons_self)
    rw [Unpacking.candidate_eq resolved] at hfail
    refine (faults_tagged depth htagged s'.medium scope fault rfl hfail).imp_right fun refuses => ?_
    exact ⟨before, key, c, after, schema, scope, s', split, resolved, hread, hopen, refuses⟩
  · intro s before key c after field selector scope s' v fault split resolved hread hopen shown unusable
    refine ⟨?_, unusable.kind⟩
    have hfield := unpack_unusable unusable shown depth s'.medium
    show Body.unpackObject (Unpacking.candidate Γ (unpack Γ (depth + 2))) layout s = _
    rw [Body.unpackObject, split, Body.unpackFields_append, Walk.bind_apply, Walk.bind_apply, hread]
    simp only [Body.unpackFields, hopen, Bool.false_eq_true, if_false, Walk.bind_apply, Walk.within,
      Unpacking.candidate_eq resolved, hfield]

namespace SignedCount

/-- A signed count, and as many bytes. -/
def layout : Layout := .named [("n", .number .int8), ("bytes", .dependArray "n" (.number .uint8))]

theorem tagged (key : String) (c : Candidate) (h : (key, c) ∈ layout.entries) :
    ∃ schema, Registry.standard.resolve c = .ok schema ∧ schema.Tagged Registry.standard := by
  rcases List.mem_cons.mp h with h | h
  · cases h
    exact ⟨_, rfl, .number .int8⟩
  · cases List.mem_singleton.mp h
    exact ⟨_, rfl, .counted rfl (.number .uint8)⟩

end SignedCount

set_option maxRecDepth 4000 in
theorem unpack_tagged_signed :
    (unpack Packet.context 3 (.object SignedCount.layout) ⟨⟨#[255], 0⟩, none⟩ =
        .error (.fault (.invalidArgument "array" ("bad count " ++ (Value.int (-1)).literal))) ∧
      (Fault.invalidArgument "array" ("bad count " ++ (Value.int (-1)).literal)).kind = .schema) ∧
    (unpack Packet.context 3 (.object SignedCount.layout) ⟨⟨#[2, 7], 0⟩, none⟩ = .error (.fault (.bufferUnderflow 1 2 1)) ∧
      (Fault.bufferUnderflow 1 2 1).kind = .data) := by
  have tagged := unpack_tagged (Γ := Packet.context) SignedCount.tagged 0
  refine ⟨?_, rfl, rfl⟩
  have unusable : Unusable Registry.standard (.counting (.number .uint8)) (.int (-1)) _ := .number rfl rfl
  exact tagged.2 _ [("n", .number .int8)] "bytes" _ [] "n" _ _ _ _ _ rfl rfl rfl rfl rfl unusable

namespace LabelledByte

/-- A label, of which only one is a case, and a byte. -/
def layout : Layout := .named [("label", .number .uint8), ("byte", .depend "label" (.cases [(.int 1, .number .uint8)]))]

end LabelledByte

set_option maxRecDepth 4000 in
/-- Bytes that do not fit a format which other bytes fit are reported as a fault of the format: a negative count, and a label that is
no case. -/
theorem unpack_blames_schema :
    Registry.standard.unpack (.object SignedCount.layout) #[1, 7] = .ok (.record [("n", .int 1), ("bytes", .list [.int 7])]) ∧
      Registry.standard.unpack (.object SignedCount.layout) #[255] = .error (.fault (.invalidArgument "array" "bad count -1")) ∧
      (Fault.invalidArgument "array" "bad count -1").kind = .schema ∧
      Registry.standard.unpack (.object LabelledByte.layout) #[1, 7] = .ok (.record [("label", .int 1), ("byte", .int 7)]) ∧
      Registry.standard.unpack (.object LabelledByte.layout) #[9] = .error (.fault (.unregisteredSchema "cases(9)")) ∧
      (Fault.unregisteredSchema "cases(9)").kind = .schema :=
  ⟨rfl, rfl, rfl, rfl, rfl, rfl⟩

end WireLayout
