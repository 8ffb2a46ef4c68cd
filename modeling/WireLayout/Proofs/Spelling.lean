import WireLayout.Proofs.Contents

/-!
# Spellings

A child of a schema can be spelled in many ways: as a name, an alias of it, a shorthand, a raw layout, or as the schema itself.
`Schema.Respelled` holds of two schemas that are the same but for the spelling of children, at any depth and in any number: a child
may be replaced by anything that stands for a schema which is itself the same but for spellings (`Candidate.Respelled.resolved`).
Names may refer back to themselves, so the relation does not unfold what is not replaced. A fault may show how a schema is spelled
in the words that say why an argument is invalid, and nowhere else; without these words it is `Fault.bare`.
-/

namespace WireLayout

/-! ## Schemas but for the spelling of children -/

mutual

/-- Two candidates that stand for the same, but for spellings inside. -/
inductive Candidate.Respelled (r : Registry) : Candidate → Candidate → Prop where
  | same (c : Candidate) : Candidate.Respelled r c c
  | resolved {c c' : Candidate} {schema schema' : Schema} : r.resolve c = .ok schema → r.resolve c' = .ok schema' →
      Schema.Respelled r schema schema' → Candidate.Respelled r c c'

inductive Count.Respelled (r : Registry) : Count → Count → Prop where
  | fixed (n : Nat) : Count.Respelled r (.fixed n) (.fixed n)
  | prefixed {number number' : Candidate} : Candidate.Respelled r number number' →
      Count.Respelled r (.prefixed number) (.prefixed number')
  | auto : Count.Respelled r .auto .auto

/-- Fields under the same keys. -/
inductive Keyed.Respelled (r : Registry) : Keyed Candidate → Keyed Candidate → Prop where
  | nil : Keyed.Respelled r [] []
  | cons {key : String} {c c' : Candidate} {rest rest' : Keyed Candidate} : Candidate.Respelled r c c' →
      Keyed.Respelled r rest rest' → Keyed.Respelled r ((key, c) :: rest) ((key, c') :: rest')

inductive Layout.Respelled (r : Registry) : Layout → Layout → Prop where
  | named {fields fields' : Keyed Candidate} : Keyed.Respelled r fields fields' → Layout.Respelled r (.named fields) (.named fields')
  | positional {items items' : List Candidate} :
      Keyed.Respelled r (Layout.positional items).entries (Layout.positional items').entries →
      Layout.Respelled r (.positional items) (.positional items')

/-- Two schemas that are the same but for the spelling of children. -/
inductive Schema.Respelled (r : Registry) : Schema → Schema → Prop where
  | number (kind : Number) : Schema.Respelled r (.number kind) (.number kind)
  | array {item item' : Candidate} {count count' : Count} : Candidate.Respelled r item item' → Count.Respelled r count count' →
      Schema.Respelled r (.array item count) (.array item' count')
  | string {size size' : Count} : Count.Respelled r size size' → Schema.Respelled r (.string size) (.string size')
  | cstring {size size' : Count} : Count.Respelled r size size' → Schema.Respelled r (.cstring size) (.cstring size')
  | object {layout layout' : Layout} : Layout.Respelled r layout layout' → Schema.Respelled r (.object layout) (.object layout')
  | union {layout layout' : Layout} (size : Nat) : Layout.Respelled r layout layout' →
      Schema.Respelled r (.union layout size) (.union layout' size)
  | enums (names : List (String × Int64)) {base base' : Candidate} : Candidate.Respelled r base base' →
      Schema.Respelled r (.enums names base) (.enums names base')
  | depend (field : String) (selector : Selector) : Schema.Respelled r (.depend field selector) (.depend field selector)
  | link (field : String) {item item' : Candidate} : Candidate.Respelled r item item' →
      Schema.Respelled r (.link field item) (.link field item')
  | computed (operator : Operator) (value : Value) : Schema.Respelled r (.computed operator value) (.computed operator value)
  | exit : Schema.Respelled r .exit .exit
  | parse (encode decode : Transcoder) {inner inner' : Candidate} {size size' : Count} : Candidate.Respelled r inner inner' →
      Count.Respelled r size size' → Schema.Respelled r (.parse encode decode inner size) (.parse encode decode inner' size')
  | custom (extension : Extension) : Schema.Respelled r (.custom extension) (.custom extension)

end

variable {r : Registry}

/-! ## Nothing replaced -/

theorem Count.Respelled.refl (count : Count) : Count.Respelled r count count := by
  cases count with
  | fixed n => exact .fixed n
  | prefixed number => exact .prefixed (.same number)
  | auto => exact .auto

theorem Keyed.Respelled.refl (fields : Keyed Candidate) : Keyed.Respelled r fields fields := by
  induction fields with
  | nil => exact .nil
  | cons field rest ih => exact .cons (.same field.2) ih

theorem Layout.Respelled.refl (layout : Layout) : Layout.Respelled r layout layout := by
  cases layout with
  | named fields => exact .named (.refl fields)
  | positional items => exact .positional (.refl _)

theorem Schema.Respelled.refl (schema : Schema) : Schema.Respelled r schema schema := by
  cases schema with
  | number kind => exact .number kind
  | array item count => exact .array (.same item) (.refl count)
  | string size => exact .string (.refl size)
  | cstring size => exact .cstring (.refl size)
  | object layout => exact .object (.refl layout)
  | union layout size => exact .union size (.refl layout)
  | enums names base => exact .enums names (.same base)
  | depend field selector => exact .depend field selector
  | link field item => exact .link field (.same item)
  | computed operator value => exact .computed operator value
  | exit => exact .exit
  | parse encode decode inner size => exact .parse encode decode (.same inner) (.refl size)
  | custom extension => exact .custom extension

/-! ## What spellings leave alone -/

/-- Two spellings stand for the same, but for spellings inside, or neither stands for anything. -/
theorem Candidate.Respelled.resolve {c c' : Candidate} (h : Candidate.Respelled r c c') :
    (∃ schema schema', r.resolve c = .ok schema ∧ r.resolve c' = .ok schema' ∧ Schema.Respelled r schema schema') ∨
      ∃ stop, r.resolve c = .error stop ∧ r.resolve c' = .error stop := by
  cases h with
  | same c =>
    cases resolved : r.resolve c with
    | ok schema => exact .inl ⟨schema, schema, rfl, rfl, .refl schema⟩
    | error stop => exact .inr ⟨stop, rfl, rfl⟩
  | resolved left right inside => exact .inl ⟨_, _, left, right, inside⟩

theorem Layout.Respelled.entries {layout layout' : Layout} (h : Layout.Respelled r layout layout') :
    Keyed.Respelled r layout.entries layout'.entries := by
  cases h with
  | named h => exact h
  | positional h => exact h

theorem Layout.Respelled.emptyValue {layout layout' : Layout} (h : Layout.Respelled r layout layout') :
    layout'.emptyValue = layout.emptyValue := by
  cases h <;> rfl

theorem Layout.Respelled.checkShape {layout layout' : Layout} (h : Layout.Respelled r layout layout') (v : Value) :
    Body.checkShape layout' v = Body.checkShape layout v := by
  cases h <;> cases v <;> rfl

theorem Keyed.Respelled.lookup {fields fields' : Keyed Candidate} (h : Keyed.Respelled r fields fields') (key : String) :
    Option.Rel (Candidate.Respelled r) (fields.lookup key) (fields'.lookup key) := by
  induction fields generalizing fields' with
  | nil =>
    cases h
    exact .none
  | cons field rest ih =>
    cases h with
    | @cons k c c' _ rest' hc hrest =>
      rw [Keyed.lookup_cons, Keyed.lookup_cons]
      split
      · exact .some hc
      · exact ih hrest

theorem Keyed.Respelled.getElem? {fields fields' : Keyed Candidate} (h : Keyed.Respelled r fields fields') (i : Nat) :
    Option.Rel (fun field field' => field.1 = field'.1 ∧ Candidate.Respelled r field.2 field'.2) fields[i]? fields'[i]? := by
  induction fields generalizing fields' i with
  | nil =>
    cases h
    exact .none
  | cons field rest ih =>
    cases h with
    | cons hc hrest =>
      cases i with
      | zero => exact .some ⟨rfl, hc⟩
      | succ i => simpa using ih hrest i

/-- A sibling is spelled differently, or is none in either spelling. -/
theorem Layout.Respelled.get? {layout layout' : Layout} (h : Layout.Respelled r layout layout') (key : String) :
    Option.Rel (Candidate.Respelled r) (layout.get? key) (layout'.get? key) := by
  cases h with
  | named h => exact h.lookup key
  | @positional items items' h =>
    simp only [Layout.get?, Position.lookup]
    cases Position.ofKey? key with
    | none => exact .none
    | some i =>
      have item := h.getElem? i
      simp only [Layout.entries, Layout.getElem?_positionEntries] at item
      show Option.Rel _ items[i]? items'[i]?
      cases left : items[i]? <;> cases right : items'[i]? <;> rw [left, right] at item
      · exact .none
      · cases item
      · cases item
      · cases item with
        | some item => exact .some item.2

/-! ## Faults but for words -/

/-- The fault without the words that say why an argument is invalid. -/
def Fault.bare : Fault → Fault
  | .invalidArgument builder _ => .invalidArgument builder ""
  | fault => fault

/-- The end of a run without the words that say why an argument is invalid. -/
def Stop.bare : Stop → Stop
  | .fault cause => .fault cause.bare
  | .exhausted => .exhausted

end WireLayout
