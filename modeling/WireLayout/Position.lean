/-!
# Positions as keys

Items of a positional body are addressed by the decimal text of their position, so that positional and named fields share one
lookup. Writing a position uses the canonical text (`Position.key`); reading one (`Position.ofKey?`) also accepts a leading plus
sign and leading zeros, and refuses what does not fit a 64-bit word.
-/

namespace WireLayout

/-- Counts, sizes and positions are machine words of 64 bits: they stay below this bound. -/
def wordBound : Nat := 0x10000000000000000

namespace Position

/-- Reads a non-empty run of decimal digits whose value is a machine word. -/
def ofDigits? (digits : List Char) : Option Nat :=
  if digits ≠ [] ∧ digits.all Char.isDigit ∧ Nat.ofDigitChars 10 digits 0 < wordBound then
    some (Nat.ofDigitChars 10 digits 0)
  else none

/-- The canonical key of a position: decimal, no sign, no leading zeros. -/
def key (i : Nat) : String := toString i

/-- The position a key stands for: decimal digits, after a plus sign or none. -/
def ofKey? (key : String) : Option Nat :=
  match key.toList with
  | '+' :: digits => ofDigits? digits
  | digits => ofDigits? digits

/-- The item of a list that a key addresses. -/
def lookup {α : Type} (key : String) (items : List α) : Option α := do
  items[← ofKey? key]?

/-- The decimal digits of a machine word read back as it. -/
theorem ofDigits?_toDigits {i : Nat} (h : i < wordBound) : ofDigits? (Nat.toDigits 10 i) = some i := by
  have digits : (Nat.toDigits 10 i).all Char.isDigit = true :=
    List.all_eq_true.2 fun _ hc => Nat.isDigit_of_mem_toDigits (by decide) (by decide) hc
  simp [ofDigits?, digits, Nat.ofDigitChars_toDigits, h]

/-- The key of a position stands for that position. -/
theorem ofKey?_key {i : Nat} (h : i < wordBound) : ofKey? (key i) = some i := by
  have text : (key i).toList = Nat.toDigits 10 i := Nat.toList_repr
  unfold ofKey?
  split
  · next digits heq =>
    have plus : '+' ∈ Nat.toDigits 10 i := by rw [← text, heq]; exact List.mem_cons_self
    exact absurd (Nat.isDigit_of_mem_toDigits (by decide) (by decide) plus) (by decide)
  · rw [text]
    exact ofDigits?_toDigits h

/-- The key of a position addresses the item there. -/
theorem lookup_key {α : Type} {i : Nat} (h : i < wordBound) (items : List α) : lookup (key i) items = items[i]? := by
  simp [lookup, ofKey?_key h]

end Position

end WireLayout
