import WireLayout.Proofs.ContextFree
import WireLayout.Proofs.Resolution

/-!
# Aliases that go round

A chain of aliases that comes to a name twice leads to no entry (`aliasEnd_eq_cyclic`). Following it is given up, and the scan goes on
with the patterns that are left, on the name that it started from. So such a name stands for nothing unless it is a shorthand itself,
and then it is that array all the same (`resolve_revisiting`, `pack_round`): what the other names on the chain look like does not matter.
-/

namespace WireLayout

namespace Registry

/-- A chain that comes to a name twice has no end. -/
theorem aliasEnd_eq_cyclic {table : Table} {name : String} (round : Revisits (entryIn table) name) :
    aliasEnd table name = .cyclic := by
  have ends := aliasEnd_ends table name
  generalize aliasEnd table name = stop at ends
  cases ends with
  | schema leads entry =>
    refine absurd round (leads.not_revisits ?_)
    simp [entry]
  | missing leads entry =>
    refine absurd round (leads.not_revisits ?_)
    simp [entry]
  | cyclic _ => rfl

/-! ## Registered names -/

theorem performAll_patterns (registrations : List Registration) : (standard.performAll registrations).patterns = standardPatterns := by
  rw [performAll_standard]
  rfl

theorem performAll_replacements (registrations : List Registration) :
    2 ≤ (standard.performAll registrations).limits.replacements := by
  rw [performAll_standard]
  show 2 ≤ ampleLimits.replacements
  decide

theorem entryIn_registered (registrations : List Registration) :
    entryIn (standard.performAll registrations).table = lastEntry registrations :=
  funext fun name => lookup_registered registrations name

/-- A name whose aliases go round is left to the shorthands as it is. -/
theorem resolve_round {registrations : List Registration} {name : String} (round : Revisits (lastEntry registrations) name) :
    (standard.performAll registrations).resolve (.name name) = orUnregistered name (spelledOut name) := by
  have cyclic : aliasEnd (standard.performAll registrations).table name = .cyclic :=
    aliasEnd_eq_cyclic (by rw [entryIn_registered]; exact round)
  rw [resolve_name (performAll_patterns registrations) (performAll_replacements registrations), cyclic, meaning]

/-- What a name stands for whose aliases go round, in a registry that was made by registrations. If it is no shorthand it stands for
nothing, and neither is anything packed with it nor unpacked; the failure reports the name itself. If it is one, it stands for the
array that it spells, and so packs and unpacks as this array. -/
theorem resolve_revisiting (registrations : List Registration) {name : String} (round : Revisits (lastEntry registrations) name) :
    ((¬∃ item count, Shorthand name item count) →
      (standard.performAll registrations).resolve (.name name) = .error (.fault (.unregisteredSchema name)) ∧
        (∀ v options, (standard.performAll registrations).packWith (.name name) v options =
          .error (.fault (.unregisteredSchema name))) ∧
        ∀ data options, (standard.performAll registrations).unpackWith (.name name) data options =
          .error (.fault (.unregisteredSchema name))) ∧
    ∀ item count, Shorthand name item count →
      (standard.performAll registrations).resolve (.name name) = .ok (.array (.name item) count) ∧
        (∀ v options, (standard.performAll registrations).packWith (.name name) v options =
          (standard.performAll registrations).packWith (.array (.name item) count) v options) ∧
        ∀ data options, (standard.performAll registrations).unpackWith (.name name) data options =
          (standard.performAll registrations).unpackWith (.array (.name item) count) data options := by
  have resolved := resolve_round round
  refine ⟨fun plain => ?_, fun item count shorthand => ?_⟩
  · rw [spelledOut_eq_none plain] at resolved
    exact ⟨resolved, packWith_of_resolve_error resolved, unpackWith_of_resolve_error resolved⟩
  · rw [spelledOut_of_shorthand shorthand] at resolved
    exact ⟨resolved, packWith_congr resolved, unpackWith_congr resolved⟩

/-- Two names that are registered for each other, one of them spelled like an array, and a name that leads to them. -/
def roundRegistrations : List Registration := [.addAlias "rgb" "uint8[3]", .register "uint8[3]" (.name "rgb"), .addAlias "color" "rgb"]

theorem round_entries :
    Refers (lastEntry roundRegistrations) "color" "rgb" ∧ Refers (lastEntry roundRegistrations) "rgb" "uint8[3]" ∧
      Refers (lastEntry roundRegistrations) "uint8[3]" "rgb" :=
  ⟨rfl, rfl, rfl⟩

theorem round_revisits : Revisits (lastEntry roundRegistrations) "color" ∧ Revisits (lastEntry roundRegistrations) "uint8[3]" := by
  obtain ⟨color, rgb, array⟩ := round_entries
  have around : Relation.TransGen (Refers (lastEntry roundRegistrations)) "rgb" "rgb" := (Relation.TransGen.single rgb).tail array
  exact ⟨⟨"rgb", .single color, around⟩, ⟨"rgb", .single array, around⟩⟩

/-- A name that runs into the two stands for nothing. -/
theorem resolve_revisiting_color :
    Revisits (lastEntry roundRegistrations) "color" ∧ (¬∃ item count, Shorthand "color" item count) ∧
      (standard.performAll roundRegistrations).packWith (.name "color") (.list [.int 1]) .littleEndian =
        .error (.fault (.unregisteredSchema "color")) := by
  have round := round_revisits.1
  have plain : ¬∃ item count, Shorthand "color" item count := by
    rintro ⟨item, count, ⟨inner, text, -, -⟩⟩
    have bracket : '[' ∈ "color".toList := by simp [text]
    exact absurd bracket (by decide)
  obtain ⟨-, packed, -⟩ := (resolve_revisiting roundRegistrations round).1 plain
  exact ⟨round, plain, packed _ _⟩

theorem shorthand_rgb : Shorthand "uint8[3]" "uint8" (.fixed 3) := by
  have word : IsWord "uint8".toList := (isWord_iff _).2 ⟨nofun, rfl⟩
  have digit : ∀ c ∈ ['3'], c.isDigit := by simp
  exact .intro ['3'] rfl word (.digits nofun digit (by decide))

/-- The one that is spelled like an array is one, although its aliases go round. -/
theorem pack_round :
    Revisits (lastEntry roundRegistrations) "uint8[3]" ∧
      (standard.performAll roundRegistrations).resolve (.name "uint8[3]") = .ok (.array (.name "uint8") (.fixed 3)) ∧
      (standard.performAll roundRegistrations).pack (.name "uint8[3]") (.list [.int 1]) = .ok #[1, 0, 0] := by
  have resolved := resolve_round round_revisits.2
  rw [spelledOut_of_shorthand shorthand_rgb] at resolved
  refine ⟨round_revisits.2, resolved, ?_⟩
  calc (standard.performAll roundRegistrations).pack (.name "uint8[3]") (.list [.int 1])
    _ = (standard.performAll roundRegistrations).pack (.array (.name "uint8") (.fixed 3)) (.list [.int 1]) :=
      packWith_congr resolved _ _
    _ = .ok #[1, 0, 0] := rfl

end Registry

end WireLayout
