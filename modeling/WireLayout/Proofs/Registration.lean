import WireLayout.Registry.Standard

/-!
# What a registry knows

Names come into a registry by registrations, one after another, and the one that came last counts (`lookup_registered`). This holds of
the names that a standard registry starts with as well, which are registrations themselves (`standard_eq_enter`), so all that a registry
knows of names is the list of their registrations (`history`). The patterns and the limits are those of the standard registry.
-/

namespace WireLayout

namespace Keyed

variable {α : Type}

theorem insertAll_append (pairs first rest : Keyed α) : insertAll pairs (first ++ rest) = insertAll (insertAll pairs first) rest :=
  List.foldl_append

/-- Of the pairs that were inserted under a key the last one is found. -/
theorem lookup_insertAll (pairs more : Keyed α) (key : String) :
    (insertAll pairs more).lookup key = (more.reverse.lookup key).or (pairs.lookup key) := by
  induction more generalizing pairs with
  | nil => rfl
  | cons pair rest ih =>
    obtain ⟨k, content⟩ := pair
    show (insertAll (insert pairs k content) rest).lookup key = _
    rw [ih, lookup_insert, List.reverse_cons, List.lookup_append, Option.or_assoc, lookup_cons]
    by_cases h : key = k
    · simp [h]
    · simp [h]

end Keyed

/-- A call that brings names into a registry. -/
inductive Registration where
  | register (name : String) (candidate : Candidate)
  | addAlias (name target : String)
  /-- A plugin that registers several names. -/
  | install (entries : List (String × Candidate))

namespace Registration

/-- The names that a registration brings in, and what they stand for. -/
def entries : Registration → List (String × Entry)
  | register name candidate => [(name, Registry.entryOf candidate)]
  | addAlias name target => [(name, .aliasOf target)]
  | install entries => entries.map fun entry => (entry.1, Registry.entryOf entry.2)

end Registration

namespace Registry

/-- Does what a registration asks for. -/
def perform (r : Registry) : Registration → Registry
  | .register name candidate => r.register name candidate
  | .addAlias name target => r.addAlias name target
  | .install entries => r.install entries

/-- Does one registration after another. -/
def performAll (r : Registry) (registrations : List Registration) : Registry := registrations.foldl perform r

/-- Brings names into a registry, one after another. -/
def enter (r : Registry) (entries : List (String × Entry)) : Registry := { r with table := Keyed.insertAll r.table entries }

theorem enter_append (r : Registry) (first rest : List (String × Entry)) : r.enter (first ++ rest) = (r.enter first).enter rest := by
  simp only [enter, Keyed.insertAll_append]

theorem install_eq_enter (r : Registry) (entries : List (String × Candidate)) :
    r.install entries = r.enter (entries.map fun entry => (entry.1, entryOf entry.2)) := by
  induction entries generalizing r with
  | nil => rfl
  | cons entry rest ih => exact ih (r.register entry.1 entry.2)

/-- A registration changes nothing but the names. -/
theorem perform_eq_enter (r : Registry) (registration : Registration) : r.perform registration = r.enter registration.entries := by
  cases registration with
  | register name candidate => rfl
  | addAlias name target => rfl
  | install entries => exact install_eq_enter r entries

theorem performAll_eq_enter (r : Registry) (registrations : List Registration) :
    r.performAll registrations = r.enter (registrations.flatMap Registration.entries) := by
  induction registrations generalizing r with
  | nil => rfl
  | cons registration rest ih =>
    show (r.perform registration).performAll rest = _
    rw [ih, perform_eq_enter, List.flatMap_cons, enter_append]

/-! ## The standard registry -/

/-- The names of a kind of number. -/
def numberEntries (kind : Number) : List (String × Entry) :=
  (kind.name, .schema (.number kind)) :: kind.aliases.map fun name => (name, .aliasOf kind.name)

/-- The names that every standard registry starts with. -/
def standardEntries : List (String × Entry) :=
  Number.all.flatMap numberEntries ++ textEntries.map fun entry => (entry.1, entryOf entry.2)

theorem addAliases_eq_enter (r : Registry) (names : List String) (target : String) :
    names.foldl (fun r name => r.addAlias name target) r = r.enter (names.map fun name => (name, .aliasOf target)) := by
  induction names generalizing r with
  | nil => rfl
  | cons name rest ih => exact ih (r.addAlias name target)

theorem registerNumber_eq_enter (r : Registry) (kind : Number) : r.registerNumber kind = r.enter (numberEntries kind) := by
  rw [registerNumber, addAliases_eq_enter]
  rfl

theorem registerNumbers_eq_enter (r : Registry) (kinds : List Number) :
    kinds.foldl registerNumber r = r.enter (kinds.flatMap numberEntries) := by
  induction kinds generalizing r with
  | nil => rfl
  | cons kind rest ih =>
    rw [List.foldl_cons, ih, registerNumber_eq_enter, List.flatMap_cons, enter_append]

/-- A standard registry is an empty one with the standard patterns, into which the standard names were brought. -/
theorem standard_eq_enter : standard = { empty with patterns := standardPatterns }.enter standardEntries := by
  rw [standard, install_eq_enter, registerNumbers_eq_enter, ← enter_append]
  rfl

/-! ## Registered names -/

/-- All that was brought into a standard registry, in order. -/
def history (registrations : List Registration) : List (String × Entry) :=
  standardEntries ++ registrations.flatMap Registration.entries

/-- What a name was registered for last. -/
def lastEntry (registrations : List Registration) (name : String) : Option Entry := (history registrations).reverse.lookup name

/-- A registry after some registrations. -/
theorem performAll_standard (registrations : List Registration) :
    standard.performAll registrations = { empty with patterns := standardPatterns }.enter (history registrations) := by
  rw [performAll_eq_enter, standard_eq_enter, ← enter_append]
  rfl

/-- A registry finds under a name what the name was registered for last. -/
theorem lookup_registered (registrations : List Registration) (name : String) :
    (standard.performAll registrations).table.lookup name = lastEntry registrations name := by
  rw [performAll_standard]
  show (Keyed.insertAll [] (history registrations)).lookup name = _
  rw [Keyed.lookup_insertAll, lastEntry]
  exact Option.or_none

end Registry

end WireLayout
