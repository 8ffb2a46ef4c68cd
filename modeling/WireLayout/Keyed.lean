/-!
# Keyed lists

Fields of objects, named layouts and registry tables are all lists of pairs in the order in which their keys first appeared.
`Keyed.insert` is the only way the library grows such a list: a new key goes to the end, a known key keeps its place and takes
the new content. Lookup is `List.lookup`.
-/

namespace WireLayout

/-- Pairs in the order in which their keys were first inserted. -/
abbrev Keyed (α : Type) := List (String × α)

namespace Keyed

variable {α : Type}

/-- A known key keeps its place and takes the new content; a new key goes to the end. -/
def insert (pairs : Keyed α) (key : String) (content : α) : Keyed α :=
  match pairs with
  | [] => [(key, content)]
  | (k, old) :: rest => if k = key then (k, content) :: rest else (k, old) :: insert rest key content

/-- The keys in order. -/
def keys (pairs : Keyed α) : List String := pairs.map (·.1)

/-- Inserts the pairs of `more` one after another. -/
def insertAll (pairs more : Keyed α) : Keyed α :=
  more.foldl (fun acc pair => insert acc pair.1 pair.2) pairs

/-- The keyed list that results from inserting the given pairs one after another. -/
def ofList (pairs : List (String × α)) : Keyed α := insertAll [] pairs

/-- Looking up in a list with a first pair: that pair answers for its own key, the rest for all others. -/
theorem lookup_cons (k key : String) (content : α) (rest : Keyed α) :
    List.lookup k ((key, content) :: rest) = if k = key then some content else List.lookup k rest := by
  rw [List.lookup_cons]
  by_cases h : k = key
  · simp [h]
  · simp [beq_false_of_ne h, h]

/-- What was inserted last under a key is what is found there; every other key is as before. -/
theorem lookup_insert (pairs : Keyed α) (key k : String) (content : α) :
    (insert pairs key content).lookup k = if k = key then some content else pairs.lookup k := by
  induction pairs with
  | nil => simp [insert, lookup_cons]
  | cons pair rest ih =>
    obtain ⟨k', old⟩ := pair
    by_cases hk : k' = key
    · subst hk
      by_cases h : k = k' <;> simp [insert, lookup_cons, h]
    · by_cases h : k = k'
      · subst h
        simp [insert, hk]
      · simp [insert, lookup_cons, hk, h, ih]

/-- Inserting a known key leaves the keys as they are; a new key goes to the end. -/
theorem keys_insert (pairs : Keyed α) (key : String) (content : α) :
    keys (insert pairs key content) = if key ∈ keys pairs then keys pairs else keys pairs ++ [key] := by
  induction pairs with
  | nil => rfl
  | cons pair rest ih =>
    obtain ⟨k', old⟩ := pair
    by_cases hk : k' = key
    · subst hk
      simp [insert, keys]
    · have hk' : key ≠ k' := fun h => hk h.symm
      simp only [keys] at ih
      by_cases hm : key ∈ List.map (·.1) rest <;> simp_all [insert, keys]

end Keyed

end WireLayout
