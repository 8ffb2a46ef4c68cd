import WireLayout.Proofs.Site

/-!
# Contents of bodies

In a well-formed layout every field has a key of its own. A body of such a layout is then the same as the list of what its fields
contain (`Layout.valueOf`): adding the next field to the value appends to the list (`push_value`), every field is found under its key
(`get?_valueOf`), and what an earlier field contains is found no matter what comes later (`get?_valueOf_append`). So a body that
holds the whole value shows all that a body shows in which only some fields are read (`Scope.sees_of_value`).
-/

namespace WireLayout

namespace Keyed

variable {α : Type}

theorem insert_of_not_mem {pairs : Keyed α} {key : String} (h : key ∉ keys pairs) (content : α) :
    insert pairs key content = pairs ++ [(key, content)] := by
  induction pairs with
  | nil => rfl
  | cons pair rest ih =>
    obtain ⟨k, old⟩ := pair
    have hk : k ≠ key := fun heq => h (by rw [heq]; exact List.mem_cons_self)
    have hrest : key ∉ keys rest := fun hmem => h (List.mem_cons_of_mem _ hmem)
    rw [insert, if_neg hk, ih hrest]
    rfl

theorem lookup_append_of_some {pairs more : Keyed α} {key : String} {content : α} (h : pairs.lookup key = some content) :
    (pairs ++ more).lookup key = some content := by
  rw [List.lookup_append, h]
  rfl

theorem lookup_append_cons_of_not_mem {pairs more : Keyed α} {key : String} (h : key ∉ keys pairs) (content : α) :
    (pairs ++ (key, content) :: more).lookup key = some content := by
  induction pairs with
  | nil => rw [List.nil_append, lookup_cons, if_pos rfl]
  | cons pair rest ih =>
    obtain ⟨k, old⟩ := pair
    have hk : key ≠ k := fun heq => h (by rw [heq]; exact List.mem_cons_self)
    have hrest : key ∉ keys rest := fun hmem => h (List.mem_cons_of_mem _ hmem)
    rw [List.cons_append, lookup_cons, if_neg hk]
    exact ih hrest

theorem keys_append (pairs more : Keyed α) : keys (pairs ++ more) = keys pairs ++ keys more := List.map_append

theorem length_keys (pairs : Keyed α) : (keys pairs).length = pairs.length := List.length_map ..

/-- The next field, counted among those before. -/
theorem split_next {entries before rest : Keyed α} {entry : String × α} (split : entries = before ++ entry :: rest) :
    entries = (before ++ [entry]) ++ rest := by
  rw [split, List.append_assoc]
  rfl

theorem length_next {β : Type} {contents : List β} {before : Keyed α} (h : contents.length = before.length) (v : β)
    (entry : String × α) : (contents ++ [v]).length = (before ++ [entry]).length := by
  rw [List.length_append, List.length_append, h]
  rfl

theorem keys_perm {pairs pairs' : Keyed α} (order : pairs.Perm pairs') : (keys pairs).Perm (keys pairs') := order.map _

/-- Where keys are distinct, what is found under a key does not depend on the order of the pairs. -/
theorem lookup_perm {pairs pairs' : Keyed α} (order : pairs.Perm pairs') (distinct : (keys pairs).Nodup) (key : String) :
    pairs.lookup key = pairs'.lookup key := by
  induction order with
  | nil => rfl
  | cons pair _ ih =>
    obtain ⟨k, content⟩ := pair
    obtain ⟨-, distinct⟩ := List.nodup_cons.mp distinct
    rw [lookup_cons, lookup_cons, ih distinct]
  | swap pair pair' rest =>
    obtain ⟨k, content⟩ := pair
    obtain ⟨k', content'⟩ := pair'
    obtain ⟨fresh, -⟩ := List.nodup_cons.mp distinct
    have differ : k' ≠ k := fun same => fresh (List.mem_cons.mpr (.inl same))
    simp only [lookup_cons]
    by_cases first : key = k
    · have second : ¬key = k' := fun h => differ (h.symm.trans first)
      rw [if_neg second, if_pos first, if_pos first]
    · rw [if_neg first, if_neg first]
  | trans first _ ih ih' =>
    rw [ih distinct]
    exact ih' ((keys_perm first).nodup_iff.mp distinct)

/-- Keys that are paired with contents are the keys of the pairs. -/
theorem keys_zip {names : List String} {contents : List α} (h : names.length = contents.length) :
    keys (names.zip contents) = names := by
  rw [keys, List.map_fst_zip (Nat.le_of_eq h)]

end Keyed

namespace Layout

/-- Every field has a key of its own: names are distinct, and positions are machine words. -/
def WellFormed : Layout → Prop
  | named fields => (Keyed.keys fields).Nodup
  | positional items => items.length ≤ wordBound

/-- The value of a body whose first fields have these contents. -/
def valueOf (layout : Layout) (contents : List Value) : Value :=
  match layout with
  | named fields => .record ((Keyed.keys fields).zip contents)
  | positional _ => .list contents

theorem valueOf_nil (layout : Layout) : layout.valueOf [] = layout.emptyValue := by
  cases layout with
  | named fields => rw [valueOf, List.zip_nil_right, emptyValue]
  | positional items => rfl

theorem getElem?_positionEntries (start : Nat) (items : List Candidate) (i : Nat) :
    (positionEntries start items)[i]? = items[i]?.map fun c => (Position.key (start + i), c) := by
  induction items generalizing start i with
  | nil => rfl
  | cons c rest ih =>
    cases i with
    | zero => rfl
    | succ i =>
      rw [positionEntries, List.getElem?_cons_succ, List.getElem?_cons_succ, ih, Nat.add_right_comm]
      rfl

/-- Keys of positions are as different as the positions. -/
theorem positionKey_inj {i j : Nat} (hi : i < wordBound) (hj : j < wordBound) (h : Position.key i = Position.key j) : i = j := by
  have hsome := Position.ofKey?_key hi
  rw [h, Position.ofKey?_key hj] at hsome
  exact (Option.some.inj hsome).symm

section

variable {layout : Layout} {before after : Keyed Candidate} {key : String} {c : Candidate}

/-- An item stands at the position that its key names. -/
theorem positional_of_split {items : List Candidate} (hwf : WellFormed (positional items))
    (split : entries (positional items) = before ++ (key, c) :: after) :
    key = Position.key before.length ∧ items[before.length]? = some c ∧ before.length < wordBound := by
  have hentry : (positionEntries 0 items)[before.length]? = some (key, c) := by
    have hsplit : positionEntries 0 items = before ++ (key, c) :: after := split
    rw [hsplit, List.getElem?_append_right (Nat.le_refl _), Nat.sub_self]
    rfl
  rw [getElem?_positionEntries, Nat.zero_add] at hentry
  obtain ⟨c', hc', heq⟩ := Option.map_eq_some_iff.mp hentry
  obtain ⟨hlt, -⟩ := List.getElem?_eq_some_iff.mp hc'
  cases heq
  exact ⟨rfl, hc', Nat.lt_of_lt_of_le hlt hwf⟩

/-- A field has another key than those before it. -/
theorem not_mem_keys_of_split (hwf : layout.WellFormed) (split : layout.entries = before ++ (key, c) :: after) :
    key ∉ Keyed.keys before := by
  cases layout with
  | named fields =>
    have hnodup : (Keyed.keys (before ++ (key, c) :: after)).Nodup := by
      rw [← split]
      exact hwf
    rw [Keyed.keys_append, List.nodup_append] at hnodup
    exact fun hmem => hnodup.2.2 key hmem key List.mem_cons_self rfl
  | positional items =>
    intro hmem
    obtain ⟨⟨key', c'⟩, hmem, heq⟩ := List.mem_map.mp hmem
    obtain ⟨before', after', hbefore⟩ := List.append_of_mem hmem
    have split' : entries (positional items) = before' ++ (key', c') :: (after' ++ (key, c) :: after) := by
      rw [split, hbefore, List.append_assoc]
      rfl
    obtain ⟨hkey, -, hlt⟩ := positional_of_split hwf split
    obtain ⟨hkey', -, hlt'⟩ := positional_of_split hwf split'
    have hsame := positionKey_inj hlt' hlt (hkey'.symm.trans (heq.trans hkey))
    rw [hbefore, List.length_append, List.length_cons] at hsame
    omega

/-- A field is found under its key. -/
theorem get?_of_split (hwf : layout.WellFormed) (split : layout.entries = before ++ (key, c) :: after) :
    layout.get? key = some c := by
  cases layout with
  | named fields =>
    have hfields : fields = before ++ (key, c) :: after := split
    rw [get?, hfields]
    exact Keyed.lookup_append_cons_of_not_mem (not_mem_keys_of_split hwf split) c
  | positional items =>
    obtain ⟨rfl, hitem, hlt⟩ := positional_of_split hwf split
    rw [get?, Position.lookup_key hlt, hitem]

/-- What a field contains is found under its key. -/
theorem get?_valueOf (hwf : layout.WellFormed) (split : layout.entries = before ++ (key, c) :: after) {contents : List Value}
    (hlength : contents.length = before.length) (v : Value) (more : List Value) :
    (layout.valueOf (contents ++ v :: more)).get? key = some v := by
  cases layout with
  | named fields =>
    have hfields : fields = before ++ (key, c) :: after := split
    have hkeys : (Keyed.keys before).length = contents.length := by rw [Keyed.length_keys, hlength]
    rw [valueOf, hfields, Keyed.keys_append, List.zip_append hkeys]
    refine Keyed.lookup_append_cons_of_not_mem ?_ v
    rw [Keyed.keys_zip hkeys]
    exact not_mem_keys_of_split hwf split
  | positional items =>
    obtain ⟨rfl, -, hlt⟩ := positional_of_split hwf split
    rw [valueOf, Value.get?, Position.lookup_key hlt, ← hlength, List.getElem?_append_right (Nat.le_refl _), Nat.sub_self]
    rfl

/-- What earlier fields contain is found no matter what comes later. -/
theorem get?_valueOf_append {contents : List Value} {k : String} {v : Value} (h : (layout.valueOf contents).get? k = some v)
    (more : List Value) : (layout.valueOf (contents ++ more)).get? k = some v := by
  cases layout with
  | named fields =>
    have hprefix : ∀ (names : List String) (contents : List Value),
        ∃ rest, names.zip (contents ++ more) = names.zip contents ++ rest := by
      intro names contents
      induction names generalizing contents with
      | nil => exact ⟨[], rfl⟩
      | cons name names ih =>
        cases contents with
        | nil => exact ⟨_, rfl⟩
        | cons x contents =>
          obtain ⟨rest, hrest⟩ := ih contents
          exact ⟨rest, congrArg ((name, x) :: ·) hrest⟩
    obtain ⟨rest, hrest⟩ := hprefix (Keyed.keys fields) contents
    rw [valueOf, hrest]
    exact Keyed.lookup_append_of_some h
  | positional items =>
    rw [valueOf, Value.get?, Position.lookup] at h ⊢
    obtain ⟨i, hi, hitem⟩ := Option.bind_eq_some_iff.mp h
    have hlt := (List.getElem?_eq_some_iff.mp hitem).1
    rw [hi]
    exact (List.getElem?_append_left hlt).trans hitem

/-- Adding the next field to the value of a body appends what it contains. -/
theorem push_value (hwf : layout.WellFormed) (split : layout.entries = before ++ (key, c) :: after) {contents : List Value}
    (hlength : contents.length = before.length) {scope : Scope} (hvalue : scope.value = layout.valueOf contents) (v : Value) :
    (scope.push key v).value = layout.valueOf (contents ++ [v]) := by
  cases layout with
  | named fields =>
    have hfields : fields = before ++ (key, c) :: after := split
    have hkeys : (Keyed.keys before).length = contents.length := by rw [Keyed.length_keys, hlength]
    have hbefore : (Keyed.keys fields).zip contents = (Keyed.keys before).zip contents := by
      have happend : (Keyed.keys before ++ Keyed.keys ((key, c) :: after)).zip (contents ++ []) =
          (Keyed.keys before).zip contents ++ (Keyed.keys ((key, c) :: after)).zip [] := List.zip_append hkeys
      rw [List.append_nil, List.zip_nil_right, List.append_nil] at happend
      rw [hfields, Keyed.keys_append]
      exact happend
    have hnext : (Keyed.keys ((key, c) :: after)).zip [v] = [(key, v)] := congrArg ((key, v) :: ·) List.zip_nil_right
    rw [valueOf, hbefore] at hvalue
    rw [Scope.push, hvalue, valueOf, hfields, Keyed.keys_append, List.zip_append hkeys, hnext]
    refine congrArg Value.record (Keyed.insert_of_not_mem ?_ v)
    rw [Keyed.keys_zip hkeys]
    exact not_mem_keys_of_split hwf split
  | positional items =>
    rw [valueOf] at hvalue
    rw [Scope.push, hvalue]
    rfl

end

end Layout

namespace Scope

/-- What is read so far is found in what is written. -/
def Sees (u w : Scope) : Prop := ∀ key v, u.field? key = some v → w.field? key = some v

/-- A body that holds more contents shows those that are there already. -/
theorem sees_of_value {layout : Layout} {contents more : List Value} {u w : Scope} (hu : u.value = layout.valueOf contents)
    (hw : w.value = layout.valueOf (contents ++ more)) : u.Sees w := by
  intro key v hfield
  rw [field?, hu] at hfield
  rw [field?, hw]
  exact Layout.get?_valueOf_append hfield more

@[simp]
theorem isExited_push (s : Scope) (key : String) (v : Value) : (s.push key v).isExited = s.isExited := by
  unfold push
  split <;> rfl

end Scope

end WireLayout
