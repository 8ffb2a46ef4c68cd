import WireLayout.Codec
import Mathlib.Logic.Relation

/-!
# Sites

A schema and the place where it runs. What a schema may do depends on the body around it and on whether a transformed region lies
in between, so statements about "every schema inside" are statements about sites. `Site.Runs` is one step inwards: it follows every
child that a run may turn to, for every value that a selector may see. `Site.Throughout` says that a property holds at a site and
at every site that is reached from it, however deep, names that refer back to themselves included. A `Sight` tells which values a
selector may see; where nothing is known of the body around, that is any value.
-/

namespace WireLayout

/-- The place of a field in the body around: the layout, and the fields before this one. -/
structure Place where
  layout : Layout
  before : Keyed Candidate

/-- A schema where it runs. -/
structure Site where
  schema : Schema
  /-- The place in the body around, if there is one. -/
  place : Option Place
  /-- Whether a transformed region lies between the body around and the schema. -/
  isParsed : Bool

/-- The values that a selector may see in a field of the body around. -/
abbrev Sight := Option Place → String → Value → Prop

/-- Any value at all. -/
def Sight.any : Sight := fun _ _ _ => True

namespace Site

variable {r : Registry} {sight : Sight} {φ ψ : Site → Prop} {site site' : Site}

/-- A schema outside every body. -/
def top (schema : Schema) : Site := { schema, place := none, isParsed := false }

/-- One schema runs directly inside another. -/
inductive Runs (r : Registry) (sight : Sight) : Site → Site → Prop where
  | item {item : Candidate} {count : Count} {schema : Schema} {place : Option Place} {isParsed : Bool}
      (resolved : r.resolve item = .ok schema) : Runs r sight ⟨.array item count, place, isParsed⟩ ⟨schema, place, isParsed⟩
  | field {layout : Layout} {before after : Keyed Candidate} {key : String} {c : Candidate} {schema : Schema}
      {place : Option Place} {isParsed : Bool} (split : layout.entries = before ++ (key, c) :: after)
      (resolved : r.resolve c = .ok schema) : Runs r sight ⟨.object layout, place, isParsed⟩ ⟨schema, some ⟨layout, before⟩, false⟩
  | view {layout : Layout} {size : Nat} {before after : Keyed Candidate} {key : String} {c : Candidate} {schema : Schema}
      {place : Option Place} {isParsed : Bool} (split : layout.entries = before ++ (key, c) :: after)
      (resolved : r.resolve c = .ok schema) :
      Runs r sight ⟨.union layout size, place, isParsed⟩ ⟨schema, some ⟨layout, before⟩, false⟩
  | selected {field : String} {selector : Selector} {v : Value} {c : Candidate} {schema : Schema} {place : Option Place}
      {isParsed : Bool} (seen : sight place field v) (selects : selector.select v = .ok c) (resolved : r.resolve c = .ok schema) :
      Runs r sight ⟨.depend field selector, place, isParsed⟩ ⟨schema, place, isParsed⟩
  | linked {field : String} {item : Candidate} {schema : Schema} {place : Option Place} {isParsed : Bool}
      (resolved : r.resolve item = .ok schema) : Runs r sight ⟨.link field item, place, isParsed⟩ ⟨schema, place, isParsed⟩
  /-- A linked array writes its count by the schema of the field that stores it. -/
  | counter {field : String} {item c : Candidate} {schema : Schema} {place : Place} {isParsed : Bool}
      (found : place.layout.get? field = some c) (resolved : r.resolve c = .ok schema) :
      Runs r sight ⟨.link field item, some place, isParsed⟩ ⟨schema, some place, isParsed⟩
  | inner {encode decode : Transcoder} {inner : Candidate} {size : Count} {schema : Schema} {place : Option Place}
      {isParsed : Bool} (resolved : r.resolve inner = .ok schema) :
      Runs r sight ⟨.parse encode decode inner size, place, isParsed⟩ ⟨schema, place, true⟩

/-- A property holds here and at every site inside. -/
def Throughout (r : Registry) (sight : Sight) (φ : Site → Prop) (site : Site) : Prop :=
  ∀ site', Relation.ReflTransGen (Runs r sight) site site' → φ site'

/-- What holds throughout holds here. -/
theorem Throughout.here (h : Throughout r sight φ site) : φ site := h site .refl

/-- What holds throughout holds throughout every site inside. -/
theorem Throughout.of_runs (h : Throughout r sight φ site) (hr : Runs r sight site site') : Throughout r sight φ site' :=
  fun site'' hin => h site'' (.head hr hin)

/-- A weaker property holds throughout as well. -/
theorem Throughout.mono (himp : ∀ site, φ site → ψ site) (h : Throughout r sight φ site) : Throughout r sight ψ site :=
  fun site' hin => himp site' (h site' hin)

/-- A property holds throughout when it holds here and throughout every site directly inside. -/
theorem throughout_intro (here : φ site) (inside : ∀ site', Runs r sight site site' → Throughout r sight φ site') :
    Throughout r sight φ site := by
  intro site'' hin
  rcases Relation.ReflTransGen.cases_head hin with rfl | ⟨site', hr, hin'⟩
  · exact here
  · exact inside site' hr site'' hin'

/-- Nothing runs inside a number. -/
theorem throughout_number {kind : Number} {place : Option Place} {isParsed : Bool} (here : φ ⟨.number kind, place, isParsed⟩) :
    Throughout r sight φ ⟨.number kind, place, isParsed⟩ := by
  refine throughout_intro here ?_
  intro site' hr
  cases hr

/-- An array runs its elements. -/
theorem throughout_array {item : Candidate} {count : Count} {place : Option Place} {isParsed : Bool}
    (here : φ ⟨.array item count, place, isParsed⟩)
    (items : ∀ schema, r.resolve item = .ok schema → Throughout r sight φ ⟨schema, place, isParsed⟩) :
    Throughout r sight φ ⟨.array item count, place, isParsed⟩ := by
  refine throughout_intro here ?_
  intro site' hr
  cases hr with
  | item hitem => exact items _ hitem

/-- A linked array runs its elements as well, and the field that stores their count. -/
theorem throughout_link {field : String} {item : Candidate} {place : Place} {isParsed : Bool}
    (here : φ ⟨.link field item, some place, isParsed⟩)
    (items : ∀ schema, r.resolve item = .ok schema → Throughout r sight φ ⟨schema, some place, isParsed⟩)
    (counter : ∀ c schema, place.layout.get? field = some c → r.resolve c = .ok schema →
      Throughout r sight φ ⟨schema, some place, isParsed⟩) :
    Throughout r sight φ ⟨.link field item, some place, isParsed⟩ := by
  refine throughout_intro here ?_
  intro site' hr
  cases hr with
  | linked hitem => exact items _ hitem
  | counter hfound hcounter => exact counter _ _ hfound hcounter

/-- A field stands at the place that the fields before it count up to. -/
theorem place_of_split {entries before after : Keyed Candidate} {entry : String × Candidate} (split : entries = before ++ entry :: after) :
    entries[before.length]? = some entry ∧ entries.take before.length = before := by
  subst split
  simp

/-- An object runs its fields, each behind those before it. -/
theorem throughout_object {layout : Layout} {place : Option Place} {isParsed : Bool} (here : φ ⟨.object layout, place, isParsed⟩)
    (fields : ∀ i key c schema, layout.entries[i]? = some (key, c) → r.resolve c = .ok schema →
      Throughout r sight φ ⟨schema, some ⟨layout, layout.entries.take i⟩, false⟩) :
    Throughout r sight φ ⟨.object layout, place, isParsed⟩ := by
  refine throughout_intro here ?_
  intro site' hr
  cases hr with
  | @field _ before after key c schema _ _ hsplit hc =>
    obtain ⟨hi, hbefore⟩ := place_of_split hsplit
    have hfield := fields before.length key c schema hi hc
    rw [hbefore] at hfield
    exact hfield

/-- So does a union. -/
theorem throughout_union {layout : Layout} {size : Nat} {place : Option Place} {isParsed : Bool}
    (here : φ ⟨.union layout size, place, isParsed⟩)
    (fields : ∀ i key c schema, layout.entries[i]? = some (key, c) → r.resolve c = .ok schema →
      Throughout r sight φ ⟨schema, some ⟨layout, layout.entries.take i⟩, false⟩) :
    Throughout r sight φ ⟨.union layout size, place, isParsed⟩ := by
  refine throughout_intro here ?_
  intro site' hr
  cases hr with
  | @view _ _ before after key c schema _ _ hsplit hc =>
    obtain ⟨hi, hbefore⟩ := place_of_split hsplit
    have hfield := fields before.length key c schema hi hc
    rw [hbefore] at hfield
    exact hfield

end Site

/-! ## A sample format -/

namespace Packet

/-- A count, as many words as it says, and a name. -/
def layout : Layout :=
  .named [("count", .number .uint8), ("words", .link "count" (.number .uint16)), ("name", .cstring .auto)]

def schema : Schema := .object layout

def context : Context := ⟨Registry.standard, .littleEndian⟩

/-- Two words, and the name "a". -/
def bytes : Bytes := #[2, 1, 0, 2, 0, 97, 0]

def value : Value := .record [("count", .int 2), ("words", .list [.int 1, .int 2]), ("name", .text "a")]

/-- What holds of the three fields and of what runs inside them holds throughout. -/
theorem throughout {r : Registry} {sight : Sight} {φ : Site → Prop} (object : φ (.top schema))
    (count : ∀ place, φ ⟨.number .uint8, some place, false⟩) (word : ∀ place, φ ⟨.number .uint16, some place, false⟩)
    (words : φ ⟨.link "count" (.number .uint16), some ⟨layout, [("count", .number .uint8)]⟩, false⟩)
    (name : ∀ place, φ ⟨.cstring .auto, some place, false⟩) : Site.Throughout r sight φ (.top schema) := by
  refine Site.throughout_object object ?_
  intro i key c schema hi hc
  match i with
  | 0 =>
    cases hi
    cases hc
    exact Site.throughout_number (count _)
  | 1 =>
    cases hi
    cases hc
    refine Site.throughout_link words ?_ ?_
    · rintro _ ⟨⟩
      exact Site.throughout_number (word _)
    · rintro _ _ ⟨⟩ ⟨⟩
      exact Site.throughout_number (count _)
  | 2 =>
    cases hi
    cases hc
    exact Site.throughout_intro (name _) fun _ hr => nomatch hr
  | i + 3 => cases hi

end Packet

end WireLayout
