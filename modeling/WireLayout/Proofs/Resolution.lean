import WireLayout.Proofs.Registration
import WireLayout.Proofs.Aliases
import WireLayout.Proofs.Shorthand

/-!
# What candidates stand for

With the standard patterns the scan for a replacement comes to an end after two rounds at most. In the first one the aliases of a
name are followed; what comes out is a schema, or the name at which they end, and then the second round is left with the shorthands
(`resolve_name`). So a candidate stands for what its registrations say, whatever their order and whatever they replaced
(`resolve_registered`). A failure reports the name that was asked for, also when it is another name that has no entry.
-/

namespace WireLayout

namespace Registry

/-- The schema of a name without an entry: an array, if it is a shorthand, and nothing else. -/
def spelledOut (name : String) : Option Schema :=
  match shorthandPattern [] (.name name) with
  | some (.schema schema) => some schema
  | _ => none

/-- What resolution makes of a schema that may be missing, when it was asked for `asked`. -/
def orUnregistered (asked : String) : Option Schema → Except Stop Schema
  | some schema => .ok schema
  | none => .error (.fault (.unregisteredSchema asked))

/-- What a name stands for, by where its aliases lead. A name of which the aliases go round may still be a shorthand itself. -/
def meaning (name : String) : AliasEnd → Except Stop Schema
  | .schema schema => .ok schema
  | .missing last => orUnregistered name (spelledOut last)
  | .cyclic => orUnregistered name (spelledOut name)

theorem spelledOut_of_shorthand {name item : String} {count : Count} (shorthand : Shorthand name item count) :
    spelledOut name = some (.array (.name item) count) := by
  rw [spelledOut, (shorthandPattern_name_iff [] name _).2 ⟨item, count, shorthand, rfl⟩]
  rfl

theorem spelledOut_eq_none {name : String} (plain : ¬∃ item count, Shorthand name item count) : spelledOut name = none := by
  rw [spelledOut, shorthandPattern_name_eq_none [] plain]

/-- The pattern for shorthands asks no table, and all that it makes is a schema. -/
theorem shorthandPattern_eq (table : Table) (name : String) :
    shorthandPattern table (.name name) = (spelledOut name).map .schema := by
  by_cases plain : ∃ item count, Shorthand name item count
  · obtain ⟨item, count, shorthand⟩ := plain
    rw [spelledOut_of_shorthand shorthand, (shorthandPattern_name_iff table name _).2 ⟨item, count, shorthand, rfl⟩]
    rfl
  · rw [spelledOut_eq_none plain, shorthandPattern_name_eq_none table plain, Option.map_none]

theorem quoted_inj {a b : String} (same : quoted a = quoted b) : a = b := by
  have chars := congrArg String.toList same
  simpa [quoted, String.toList_inj] using chars

/-! ## The rounds of the scan -/

section Scan

variable {r : Registry} (standardOnly : r.patterns = standardPatterns)
include standardOnly

/-- Once aliases were followed, only shorthands are left. -/
theorem resolveFrom_followed (asked name : String) (replacements : Nat) (seen : List String) :
    r.resolveFrom asked (replacements + 1) (.name name) seen (some 0) = orUnregistered asked (spelledOut name) := by
  have scan : replace? r.table (some 0) (.name name) 0 r.patterns = (spelledOut name).map fun schema => (2, .schema schema) := by
    rw [standardOnly]
    simp only [standardPatterns, replace?, layoutPattern, shorthandPattern_eq]
    cases spelledOut name <;> rfl
  rw [resolveFrom, scan]
  cases spelledOut name <;> rfl

/-- A name of which the aliases lead nowhere is left to the shorthands as it is. -/
theorem resolveFrom_unfollowed {name : String} (stays : aliasPattern r.table (.name name) = none) (replacements : Nat)
    (seen : List String) : r.resolveFrom name (replacements + 1) (.name name) seen none = orUnregistered name (spelledOut name) := by
  have scan : replace? r.table none (.name name) 0 r.patterns = (spelledOut name).map fun schema => (2, .schema schema) := by
    rw [standardOnly]
    simp only [standardPatterns, replace?, stays, layoutPattern, shorthandPattern_eq]
    cases spelledOut name <;> rfl
  rw [resolveFrom, scan]
  cases spelledOut name <;> rfl

theorem resolveFrom_schema {name : String} {schema : Schema} (led : aliasPattern r.table (.name name) = some (.schema schema))
    (replacements : Nat) (seen : List String) : r.resolveFrom name (replacements + 1) (.name name) seen none = .ok schema := by
  have scan : replace? r.table none (.name name) 0 r.patterns = some (0, .schema schema) := by
    rw [standardOnly]
    simp only [standardPatterns, replace?, led]
    rfl
  rw [resolveFrom, scan]

theorem resolveFrom_name {name last : String} (led : aliasPattern r.table (.name name) = some (.name last)) (other : last ≠ name)
    (replacements : Nat) : r.resolveFrom name (replacements + 2) (.name name) [(Candidate.name name).text] none =
      orUnregistered name (spelledOut last) := by
  have scan : replace? r.table none (.name name) 0 r.patterns = some (0, .name last) := by
    rw [standardOnly]
    simp only [standardPatterns, replace?, led]
    rfl
  have unseen : (Candidate.name last).text ∉ [(Candidate.name name).text] := fun seen =>
    other (quoted_inj (List.mem_singleton.1 seen))
  rw [resolveFrom, scan]
  simp only [if_neg unseen]
  exact resolveFrom_followed standardOnly name last replacements _

theorem resolve_name (limit : 2 ≤ r.limits.replacements) (name : String) :
    r.resolve (.name name) = meaning name (aliasEnd r.table name) := by
  obtain ⟨replacements, enough⟩ := Nat.exists_eq_add_of_le' limit
  show r.resolveFrom name r.limits.replacements (.name name) [(Candidate.name name).text] none = _
  rw [enough]
  cases stop : aliasEnd r.table name with
  | schema schema => exact resolveFrom_schema standardOnly (by rw [aliasPattern, stop]) _ _
  | missing last =>
    by_cases same : last = name
    · subst same
      exact resolveFrom_unfollowed standardOnly (by rw [aliasPattern, stop]; exact if_pos rfl) _ _
    · exact resolveFrom_name standardOnly (by rw [aliasPattern, stop]; exact if_neg same) same _
  | cyclic => exact resolveFrom_unfollowed standardOnly (by rw [aliasPattern, stop]) _ _

/-- A raw layout stands for the object of its fields. -/
theorem resolve_fields (limit : 2 ≤ r.limits.replacements) (layout : Layout) : r.resolve (.fields layout) = .ok (.object layout) := by
  obtain ⟨replacements, enough⟩ := Nat.exists_eq_add_of_le' limit
  have scan : replace? r.table none (.fields layout) 0 r.patterns = some (1, .object layout) := by
    rw [standardOnly]
    rfl
  show r.resolveFrom _ r.limits.replacements (.fields layout) _ none = _
  rw [enough, resolveFrom, scan]
  rfl

end Scan

/-! ## Registered names -/

/-- What candidates stand for in a registry that was made by registrations: a schema for itself, a raw layout for the object of its
fields, and a name, whose aliases do not go round, for what they lead to, where every name is registered for what it was registered
for last. The aliases end at a name `last` that is registered for a schema, and then it is that schema, or at one that is not
registered, and then it is an array if that name is a shorthand. If it is none, the failure reports the name that was asked for. -/
theorem resolve_registered (registrations : List Registration) :
    (∀ schema, (standard.performAll registrations).resolve (.schema schema) = .ok schema) ∧
    (∀ layout, (standard.performAll registrations).resolve (.fields layout) = .ok (.object layout)) ∧
    ∀ name, ¬Revisits (lastEntry registrations) name →
      ∃ last, LeadsTo (lastEntry registrations) name last ∧
        ((∃ schema, lastEntry registrations last = some (.schema schema) ∧
            (standard.performAll registrations).resolve (.name name) = .ok schema) ∨
          (lastEntry registrations last = none ∧
            (∀ item count, Shorthand last item count →
              (standard.performAll registrations).resolve (.name name) = .ok (.array (.name item) count)) ∧
            ((¬∃ item count, Shorthand last item count) →
              (standard.performAll registrations).resolve (.name name) = .error (.fault (.unregisteredSchema name))))) := by
  have standardOnly : (standard.performAll registrations).patterns = standardPatterns := by rw [performAll_standard]; rfl
  have limit : 2 ≤ (standard.performAll registrations).limits.replacements := by
    rw [performAll_standard]
    show 2 ≤ ampleLimits.replacements
    decide
  have entries : entryIn (standard.performAll registrations).table = lastEntry registrations :=
    funext fun name => lookup_registered registrations name
  refine ⟨fun schema => rfl, resolve_fields standardOnly limit, fun name once => ?_⟩
  have ends := aliasEnd_ends (standard.performAll registrations).table name
  rw [entries] at ends
  have resolved := resolve_name standardOnly limit name
  generalize aliasEnd (standard.performAll registrations).table name = stop at ends resolved
  cases ends with
  | @schema last schema leads entry => exact ⟨last, leads, .inl ⟨schema, entry, resolved⟩⟩
  | @missing last leads entry =>
    refine ⟨last, leads, .inr ⟨entry, fun item count shorthand => ?_, fun plain => ?_⟩⟩
    · rw [resolved, meaning, spelledOut_of_shorthand shorthand]
      rfl
    · rw [resolved, meaning, spelledOut_eq_none plain]
      rfl
  | cyclic around => exact absurd around once

/-- Registrations that refer to each other, one of them replaced by a later one. -/
def pixelRegistrations : List Registration :=
  [.addAlias "rgb" "pixel", .register "pixel" (.number .uint32), .install [("pixel", .name "uint8[3]")]]

theorem pixel_entries :
    Refers (lastEntry pixelRegistrations) "rgb" "pixel" ∧ Refers (lastEntry pixelRegistrations) "pixel" "uint8[3]" ∧
      lastEntry pixelRegistrations "uint8[3]" = none :=
  ⟨rfl, rfl, rfl⟩

theorem resolve_registered_rgb :
    ¬Revisits (lastEntry pixelRegistrations) "rgb" ∧
      (standard.performAll pixelRegistrations).resolve (.name "rgb") = .ok (.array (.name "uint8") (.fixed 3)) := by
  obtain ⟨rgb, pixel, missing⟩ := pixel_entries
  have leads : LeadsTo (lastEntry pixelRegistrations) "rgb" "uint8[3]" := (Relation.ReflTransGen.single rgb).tail pixel
  have stops : ∀ target, lastEntry pixelRegistrations "uint8[3]" ≠ some (.aliasOf target) := by simp [missing]
  have once := leads.not_revisits stops
  refine ⟨once, ?_⟩
  obtain ⟨last, leads', ⟨schema, entry, -⟩ | ⟨entry, array, -⟩⟩ := (resolve_registered pixelRegistrations).2.2 "rgb" once
  · obtain rfl := leads.unique stops leads' (by simp [entry])
    simp [missing] at entry
  · obtain rfl := leads.unique stops leads' (by simp [entry])
    have word : IsWord "uint8".toList := (isWord_iff _).2 ⟨nofun, rfl⟩
    have digit : ∀ c ∈ ['3'], c.isDigit := by simp
    exact array "uint8" (.fixed 3) (.intro ['3'] rfl word (.digits nofun digit (by decide)))

end Registry

end WireLayout
