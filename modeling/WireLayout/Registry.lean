import WireLayout.Builder

/-!
# Registries

A registry maps names to schemas or to further names, and holds the patterns that turn candidates into schemas. Resolution replaces
a candidate by what the first pattern that applies makes of it, except the pattern that has just been used, until a schema comes
out. A candidate that comes around again, by its text, is a cycle and fails like an unknown name. The number of replacements is
limited by the registry, so resolution ends under any patterns.
-/

namespace WireLayout

/-- What a name is registered for. -/
inductive Entry where
  | schema (schema : Schema)
  | aliasOf (target : String)

/-- Names in the order of their registration. -/
abbrev Table := Keyed Entry

/-- A replacement rule, which sees the registered names; none when it does not apply. -/
abbrev Pattern := Table → Candidate → Option Candidate

/-- How far a run may go before it is given up. -/
structure Limits where
  /-- Replacements in the resolution of one candidate. -/
  replacements : Nat
  /-- Schemas that run inside one another. -/
  depth : Nat
  deriving DecidableEq, Repr

/-- Names, patterns, the options of a run that gives none of its own, and limits. -/
structure Registry where
  table : Table
  patterns : List Pattern
  defaults : Options
  limits : Limits

namespace Registry

/-- Limits that only a schema without end meets. -/
def ampleLimits : Limits := { replacements := 65536, depth := 65536 }

/-- A registry without names and patterns. -/
def empty : Registry := { table := [], patterns := [], defaults := .littleEndian, limits := ampleLimits }

/-- What a candidate is registered as: a name is an alias, a raw layout is the object of its fields. -/
def entryOf : Candidate → Entry
  | .name target => .aliasOf target
  | .fields layout => .schema (.object layout)
  | .schema schema => .schema schema

/-- Registers a candidate under a name, in place of what was registered before. -/
def register (r : Registry) (name : String) (candidate : Candidate) : Registry :=
  { r with table := Keyed.insert r.table name (entryOf candidate) }

/-- Registers a name for another name. -/
def addAlias (r : Registry) (name target : String) : Registry :=
  { r with table := Keyed.insert r.table name (.aliasOf target) }

/-- Registers candidates one after another. -/
def install (r : Registry) (entries : List (String × Candidate)) : Registry :=
  entries.foldl (fun r entry => r.register entry.1 entry.2) r

/-- Adds a pattern, which is tried after all others. -/
def addPattern (r : Registry) (pattern : Pattern) : Registry :=
  { r with patterns := r.patterns ++ [pattern] }

/-- Whether a name is registered. -/
def contains (r : Registry) (name : String) : Bool := (r.table.lookup name).isSome

/-- The registered names in order. -/
def names (r : Registry) : List String := Keyed.keys r.table

/-- Makes options the default. -/
def setDefaults (r : Registry) (defaults : Options) : Registry := { r with defaults }

/-- The default options with overrides laid over them. -/
def options (r : Registry) (overrides : Overrides) : Except Fault Options := r.defaults.merged overrides

/-- The first pattern that applies, by its place among the patterns, and what it makes of the candidate. One place is skipped. -/
def replace? (table : Table) (skipped : Option Nat) (c : Candidate) (place : Nat) : List Pattern → Option (Nat × Candidate)
  | [] => none
  | pattern :: rest =>
    if skipped = some place then replace? table skipped c (place + 1) rest
    else
      match pattern table c with
      | some next => some (place, next)
      | none => replace? table skipped c (place + 1) rest

/-- Replaces `current` until a schema comes out. `seen` holds the texts of all candidates so far and `last` the place of the pattern
that has just been used; `identifier` is what a failure reports. -/
def resolveFrom (r : Registry) (identifier : String) :
    (replacements : Nat) → (current : Candidate) → (seen : List String) → (last : Option Nat) → Except Stop Schema
  | 0, _, _, _ => .error .exhausted
  | replacements + 1, current, seen, last =>
    match replace? r.table last current 0 r.patterns with
    | none => .error (.fault (.unregisteredSchema identifier))
    | some (_, .schema schema) => .ok schema
    | some (place, next) =>
      if next.text ∈ seen then .error (.fault (.unregisteredSchema identifier))
      else resolveFrom r identifier replacements next (next.text :: seen) (some place)

/-- The schema that a candidate stands for. -/
def resolve (r : Registry) (c : Candidate) : Except Stop Schema :=
  match c with
  | .schema schema => .ok schema
  | _ => r.resolveFrom c.identifier r.limits.replacements c [c.text] none

/-- The schema of a registered name. -/
def schema (r : Registry) (name : String) : Except Stop Candidate := do
  pure (.schema (← r.resolve (.name name)))

/-- Adds the fields of objects to those collected so far: known keys keep their place and take the later schema. -/
def mergeFields (r : Registry) (fields : Keyed Candidate) : List Candidate → Except Stop (Keyed Candidate)
  | [] => .ok fields
  | c :: rest => do
    match ← r.resolve c with
    | .object layout => mergeFields r (Keyed.insertAll fields layout.entries) rest
    | other => .error (.fault (.invalidArgument "merge" (other.text ++ " is not an object")))

/-- One object of all the fields of several. -/
def merge (r : Registry) (candidates : List Candidate) : Except Stop Candidate := do
  pure (.object (.named (← r.mergeFields [] candidates)))

end Registry

end WireLayout
