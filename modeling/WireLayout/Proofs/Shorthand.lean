import WireLayout.Registry.Standard

/-!
# Names with brackets

The names that stand for arrays without being registered, as a grammar: `item[D]`, `item[.]`, `item[..]` and `item[....]`, where the
item is a word and `D` the decimal digits of a machine word (`Shorthand`). A word has no bracket, so the first bracket of such a name
is where its item ends, and a name is a shorthand in at most one way. `shorthandPattern` takes exactly these names for arrays
(`shorthandPattern_name_iff`), and everything else it leaves alone.
-/

namespace WireLayout

namespace Registry

/-- What may stand between the brackets, and the count that it means. -/
inductive CountText : List Char → Count → Prop where
  | digits {ds : List Char} : ds ≠ [] → (∀ c ∈ ds, c.isDigit) → Nat.ofDigitChars 10 ds 0 < wordBound →
      CountText ds (.fixed (Nat.ofDigitChars 10 ds 0))
  | one : CountText ['.'] (.prefixed (.number .uint8))
  | two : CountText ['.', '.'] (.prefixed (.number .uint16))
  | four : CountText ['.', '.', '.', '.'] (.prefixed (.number .uint32))

/-- A non-empty run of letters, digits and underscores, all of ASCII. -/
def IsWord (cs : List Char) : Prop := cs ≠ [] ∧ ∀ c ∈ cs, c.isAlphanum ∨ c = '_'

/-- The name `text` is the name of an item with a count in brackets behind it. -/
inductive Shorthand (text item : String) (count : Count) : Prop where
  | intro (inner : List Char) : text.toList = item.toList ++ '[' :: (inner ++ [']']) → IsWord item.toList → CountText inner count →
      Shorthand text item count

/-- The texts of counts are read as what they mean, and no others are. -/
theorem shorthandCount?_iff (inner : List Char) (count : Count) : shorthandCount? inner = some count ↔ CountText inner count := by
  constructor
  · intro read
    unfold shorthandCount? at read
    split at read
    · cases read; exact .one
    · cases read; exact .two
    · cases read; exact .four
    · unfold Position.ofDigits? at read
      split at read
      · next valid =>
        cases read
        exact .digits valid.1 (List.all_eq_true.1 valid.2.1) valid.2.2
      · cases read
  · intro text
    cases text with
    | digits nonempty digits word =>
      -- A digit is not a dot, so the first three ways to read the text are out of the question.
      have value : Position.ofDigits? inner = some (Nat.ofDigitChars 10 inner 0) := by
        rw [Position.ofDigits?, if_pos ⟨nonempty, List.all_eq_true.2 digits, word⟩]
      have noDot : '.' ∉ inner := fun dot => absurd (digits '.' dot) (by decide)
      unfold shorthandCount?
      split
      · exact absurd List.mem_cons_self noDot
      · exact absurd List.mem_cons_self noDot
      · exact absurd List.mem_cons_self noDot
      · rw [value, Option.map_some]
    | one => rfl
    | two => rfl
    | four => rfl

/-- A name is cut at its first opening bracket and before its last character, a closing bracket. -/
theorem shorthandParts?_iff (name item inner : List Char) :
    shorthandParts? name = some (item, inner) ↔ '[' ∉ item ∧ name = item ++ '[' :: (inner ++ [']']) := by
  constructor
  · intro parts
    unfold shorthandParts? at parts
    split at parts
    · next body reversed =>
      have whole : name = body.reverse ++ [']'] := by rw [← List.reverse_reverse name, reversed, List.reverse_cons]
      simp only at parts
      split at parts
      · next bracket rest dropped =>
        obtain ⟨rfl, rfl⟩ : body.reverse.takeWhile (· != '[') = item ∧ rest = inner := by simpa using parts
        have first : bracket = '[' := by
          have := List.head?_dropWhile_not (· != '[') body.reverse
          simpa [dropped] using this
        subst first
        have cut : body.reverse.takeWhile (· != '[') ++ '[' :: rest = body.reverse := by
          rw [← dropped, List.takeWhile_append_dropWhile]
        refine ⟨fun within => ?_, ?_⟩
        · have := List.all_eq_true.1 (List.all_takeWhile (p := (· != '[')) (l := body.reverse)) '[' within
          exact absurd this (by decide)
        · rw [whole, ← List.cons_append, ← List.append_assoc, cut]
      · cases parts
    · cases parts
  · rintro ⟨apart, rfl⟩
    have before : ∀ c ∈ item, (c != '[') = true := fun c hc => by
      simpa using fun same : c = '[' => apart (same ▸ hc)
    simp [shorthandParts?, List.dropWhile_append_of_pos before, List.takeWhile_append_of_pos before]

theorem isWord_iff (cs : List Char) : IsWord cs ↔ cs ≠ [] ∧ cs.all isNameChar := by
  simp [IsWord, isNameChar]

theorem IsWord.no_bracket {cs : List Char} (word : IsWord cs) : '[' ∉ cs :=
  fun bracket => absurd (word.2 '[' bracket) (by decide)

/-- The pattern for names with brackets makes arrays of shorthands, and nothing else of anything else. -/
theorem shorthandPattern_name_iff (table : Table) (text : String) (c : Candidate) :
    shorthandPattern table (.name text) = some c ↔ ∃ item count, Shorthand text item count ∧ c = .array (.name item) count := by
  constructor
  · intro replaced
    obtain ⟨⟨item, inner⟩, parts, replaced⟩ := Option.bind_eq_some_iff.1 replaced
    obtain ⟨-, split⟩ := (shorthandParts?_iff text.toList item inner).1 parts
    simp only at replaced
    split at replaced
    · next word =>
      obtain ⟨count, counted, made⟩ := Option.bind_eq_some_iff.1 replaced
      have toList : (String.ofList item).toList = item := String.toList_ofList
      have countText := (shorthandCount?_iff inner count).1 counted
      refine ⟨String.ofList item, count, .intro inner ?_ ?_ countText, by simpa using made.symm⟩
      · rw [toList, split]
      · rw [toList, isWord_iff]
        exact word
    · cases replaced
  · rintro ⟨item, count, ⟨inner, split, word, counted⟩, rfl⟩
    have parts : shorthandParts? text.toList = some (item.toList, inner) :=
      (shorthandParts?_iff text.toList item.toList inner).2 ⟨word.no_bracket, split⟩
    have isWord := (isWord_iff item.toList).1 word
    have read := (shorthandCount?_iff inner count).2 counted
    simp only [shorthandPattern, parts, bind, Option.bind, if_pos isWord, read, String.ofList_toList]

/-- A name that is no shorthand is left alone. -/
theorem shorthandPattern_name_eq_none (table : Table) {text : String} (plain : ¬∃ item count, Shorthand text item count) :
    shorthandPattern table (.name text) = none := by
  cases replaced : shorthandPattern table (.name text) with
  | none => rfl
  | some c =>
    obtain ⟨item, count, shorthand, -⟩ := (shorthandPattern_name_iff table text c).1 replaced
    exact absurd ⟨item, count, shorthand⟩ plain

end Registry

end WireLayout
