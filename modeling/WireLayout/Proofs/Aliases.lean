import WireLayout.Registry.Standard
import Mathlib.Data.List.Perm.Subperm
import Mathlib.Logic.Relation

/-!
# Chains of aliases

`Refers entry a b` says that the name `a` is registered for the name `b`. A name is registered for at most one thing, so the names
that a chain of aliases passes are determined by where it starts, and the chain has one end or none (`LeadsTo.unique`, `Revisits`).
`aliasEnd` follows the chain with a list of the names that it passed and a limit on the number of links. The limit is never what
stops it (`Trail.full`): the names that were passed are all different, and all but the current one are registered for something.
So it stops at a name that is not registered for another one, or at a name that comes around again (`aliasEnd_ends`).
-/

namespace WireLayout

namespace Registry

section Chain

variable (entry : String → Option Entry)

/-- One link of a chain: `a` is registered for the name `b`. -/
def Refers (a b : String) : Prop := entry a = some (.aliasOf b)

/-- The chain that starts at `a` passes `b`, or starts there. -/
def LeadsTo (a b : String) : Prop := Relation.ReflTransGen (Refers entry) a b

/-- The chain that starts at `a` comes to some name twice. -/
def Revisits (a : String) : Prop := ∃ m, LeadsTo entry a m ∧ Relation.TransGen (Refers entry) m m

/-- Where following a chain can stop, by the entry that is found there. -/
inductive Ends (a : String) : AliasEnd → Prop where
  | schema {t : String} {schema : Schema} : LeadsTo entry a t → entry t = some (.schema schema) → Ends a (.schema schema)
  | missing {t : String} : LeadsTo entry a t → entry t = none → Ends a (.missing t)
  | cyclic : Revisits entry a → Ends a .cyclic

end Chain

/-- What a table has for a name. -/
def entryIn (table : Table) (name : String) : Option Entry := table.lookup name

variable {entry : String → Option Entry}

theorem Refers.unique {a b c : String} (hb : Refers entry a b) (hc : Refers entry a c) : b = c := by
  have same : some (Entry.aliasOf b) = some (Entry.aliasOf c) := hb.symm.trans hc
  simpa using same

/-- What a chain passes, it passes one after another. -/
theorem LeadsTo.total {a b c : String} (hb : LeadsTo entry a b) (hc : LeadsTo entry a c) : LeadsTo entry b c ∨ LeadsTo entry c b :=
  Relation.ReflTransGen.total_of_right_unique (fun _ _ _ hy hz => hy.unique hz) hb hc

/-- From a name that is not registered for another one a chain does not go on. -/
theorem LeadsTo.eq_of_end {t m : String} (last : ∀ target, entry t ≠ some (.aliasOf target)) (h : LeadsTo entry t m) : m = t := by
  rcases Relation.ReflTransGen.cases_head h with rfl | ⟨next, link, -⟩
  · rfl
  · exact absurd link (last next)

/-- A chain with an end has no other one. -/
theorem LeadsTo.unique {a t t' : String} (ht : LeadsTo entry a t) (last : ∀ target, entry t ≠ some (.aliasOf target))
    (ht' : LeadsTo entry a t') (last' : ∀ target, entry t' ≠ some (.aliasOf target)) : t = t' := by
  rcases ht.total ht' with h | h
  · exact (h.eq_of_end last).symm
  · exact h.eq_of_end last'

/-- A chain with an end does not come around. -/
theorem LeadsTo.not_revisits {a t : String} (ht : LeadsTo entry a t) (last : ∀ target, entry t ≠ some (.aliasOf target)) :
    ¬Revisits entry a := by
  rintro ⟨m, leads, round⟩
  have toEnd : LeadsTo entry m t := by
    rcases ht.total leads with h | h
    · rw [h.eq_of_end last]
      exact .refl
    · exact h
  -- From the end backwards: the name behind one that comes around comes around as well.
  clear leads ht
  induction toEnd using Relation.ReflTransGen.head_induction_on with
  | refl =>
    obtain ⟨next, link, -⟩ := Relation.TransGen.head'_iff.1 round
    exact last next link
  | @head m next link _ ih =>
    obtain ⟨next', link', back⟩ := Relation.TransGen.head'_iff.1 round
    obtain rfl : next = next' := Refers.unique link link'
    exact ih (.tail' back link)

/-! ## Following a chain -/

/-- The names that were passed on the way from `start` to `name`, in a table. -/
structure Trail (table : Table) (start : String) (visited : List String) (name : String) : Prop where
  reached : LeadsTo (entryIn table) start name
  nodup : visited.Nodup
  onward : ∀ m ∈ visited, LeadsTo (entryIn table) m name
  /-- What was passed before has an entry. -/
  known : ∀ m ∈ visited, m = name ∨ m ∈ Keyed.keys table

theorem mem_keys_of_lookup {table : Table} {name : String} {found : Entry} (h : entryIn table name = some found) :
    name ∈ Keyed.keys table := by
  obtain ⟨first, last, split, -⟩ := List.lookup_eq_some_iff.1 h
  simp [Keyed.keys, split]

namespace Trail

variable {table : Table} {start name target : String} {visited : List String}

theorem start_only (table : Table) (start : String) : Trail table start [start] start where
  reached := .refl
  nodup := by simp
  onward := fun m hm => by rw [List.mem_singleton.1 hm]; exact .refl
  known := fun m hm => .inl (List.mem_singleton.1 hm)

theorem known_all (trail : Trail table start visited name) (link : Refers (entryIn table) name target) :
    ∀ m ∈ visited, m ∈ Keyed.keys table := by
  intro m hm
  rcases trail.known m hm with rfl | h
  · exact mem_keys_of_lookup link
  · exact h

/-- The chain goes on to a name that it did not pass. -/
theorem extend (trail : Trail table start visited name) (link : Refers (entryIn table) name target) (fresh : target ∉ visited) :
    Trail table start (target :: visited) target where
  reached := trail.reached.tail link
  nodup := List.nodup_cons.2 ⟨fresh, trail.nodup⟩
  onward := fun m hm => by
    rcases List.mem_cons.1 hm with rfl | hm
    · exact .refl
    · exact (trail.onward m hm).tail link
  known := fun m hm => by
    rcases List.mem_cons.1 hm with rfl | hm
    · exact .inl rfl
    · exact .inr (trail.known_all link m hm)

/-- The chain goes on to a name that it passed. -/
theorem revisits (trail : Trail table start visited name) (link : Refers (entryIn table) name target) (passed : target ∈ visited) :
    Revisits (entryIn table) start :=
  ⟨target, trail.reached.tail link, .tail' (trail.onward target passed) link⟩

/-- As long as the chain goes on, no more names were passed than there are entries. -/
theorem full (trail : Trail table start visited name) (link : Refers (entryIn table) name target) : visited.length ≤ table.length := by
  have bound := (trail.nodup.subperm (trail.known_all link)).length_le
  simpa [Keyed.keys] using bound

end Trail

/-- Following a chain stops where the chain ends or comes around, with links enough for the names that were not passed. -/
theorem followAliases_ends {table : Table} {start : String} (links : Nat) {visited : List String} {name : String}
    (trail : Trail table start visited name) (enough : table.length < visited.length + links) :
    Ends (entryIn table) start (followAliases table links visited name) := by
  induction links generalizing visited name with
  | zero =>
    unfold followAliases
    split
    · exact .missing trail.reached (by assumption)
    · exact .schema trail.reached (by assumption)
    · next target link =>
      have := trail.full link
      omega
  | succ links ih =>
    unfold followAliases
    split
    · exact .missing trail.reached (by assumption)
    · exact .schema trail.reached (by assumption)
    · next target link =>
      split
      · next passed => exact .cyclic (trail.revisits link passed)
      · next fresh => exact ih (trail.extend link fresh) (by rw [List.length_cons]; omega)

theorem aliasEnd_ends (table : Table) (start : String) : Ends (entryIn table) start (aliasEnd table start) :=
  followAliases_ends table.length (.start_only table start) (by rw [List.length_singleton]; omega)

end Registry

end WireLayout
