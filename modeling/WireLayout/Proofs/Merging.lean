import WireLayout.Proofs.Omission
import WireLayout.Proofs.RegistrationOrder
import Mathlib.Data.List.Forall2
import Mathlib.Data.List.Induction
import Mathlib.Data.List.Nodup

/-!
# Merging objects

Merging puts the fields of several objects into one, in the order in which their keys first come up, each with the schema that stands
under its key last (`Keyed.keys_ofList`, `Keyed.lookup_ofList`). The first candidate that is no object decides the fault. A list that is
merged already can stand for the pairs that it was merged from (`Keyed.insertAll_ofList`), so objects may be merged in groups, and the
groups then (`Registry.merge_ordered`).
-/

namespace WireLayout

namespace Keyed

variable {α : Type}

/-! ## Lists of pairs with repeated keys -/

theorem ofList_concat (pairs : List (String × α)) (key : String) (content : α) :
    ofList (pairs ++ [(key, content)]) = insert (ofList pairs) key content := insertAll_append ..

/-- The last pair of a key counts. -/
theorem lookup_ofList (pairs : List (String × α)) (key : String) : (ofList pairs).lookup key = pairs.reverse.lookup key := by
  rw [ofList, lookup_insertAll]
  exact Option.or_none

theorem nodup_keys_insert {pairs : Keyed α} (distinct : (keys pairs).Nodup) (key : String) (content : α) :
    (keys (insert pairs key content)).Nodup := by
  rw [keys_insert]
  split
  · exact distinct
  · next fresh => exact List.concat_eq_append ▸ (List.nodup_concat _ _).mpr ⟨fresh, distinct⟩

/-- However the pairs are inserted, every key stands once. -/
theorem nodup_keys_insertAll {pairs : Keyed α} (distinct : (keys pairs).Nodup) (more : List (String × α)) :
    (keys (insertAll pairs more)).Nodup := by
  induction more generalizing pairs with
  | nil => exact distinct
  | cons pair rest ih => exact ih (nodup_keys_insert distinct pair.1 pair.2)

theorem nodup_keys_ofList (pairs : List (String × α)) : (keys (ofList pairs)).Nodup := by
  have distinct : (keys ([] : Keyed α)).Nodup := List.nodup_nil
  exact nodup_keys_insertAll distinct pairs

/-- Keys stand in the order in which they first came up. -/
theorem keys_ofList (pairs : List (String × α)) : keys (ofList pairs) = (keys pairs).eraseDups := by
  induction pairs using List.reverseRecOn with
  | nil => rfl
  | append_singleton pairs pair ih =>
    obtain ⟨key, content⟩ := pair
    have last : keys [(key, content)] = [key] := rfl
    rw [ofList_concat, keys_insert, ih, keys_append, List.eraseDups_append, last]
    by_cases known : key ∈ keys pairs
    · simp [List.removeAll, known]
    · simp [List.removeAll, known, List.eraseDups_cons]

/-- Of the pairs that are inserted, those under new keys go to the end, where each key stands once. -/
theorem keys_insertAll_ofList (pairs : Keyed α) (more : List (String × α)) :
    keys (insertAll pairs more) = keys pairs ++ (keys (ofList more)).filter (· ∉ keys pairs) := by
  induction more using List.reverseRecOn with
  | nil => exact (List.append_nil _).symm
  | append_singleton more pair ih =>
    obtain ⟨key, content⟩ := pair
    have both : insertAll pairs (more ++ [(key, content)]) = insert (insertAll pairs more) key content := insertAll_append ..
    rw [both, ofList_concat, keys_insert, keys_insert, ih]
    by_cases first : key ∈ keys pairs
    · by_cases second : key ∈ keys (ofList more) <;> simp [first, second]
    · by_cases second : key ∈ keys (ofList more) <;> simp [first, second]

/-- A keyed list is determined by its keys and what is found under them. -/
theorem ext_lookup {pairs pairs' : Keyed α} (distinct : (keys pairs).Nodup) (sameKeys : keys pairs = keys pairs')
    (same : ∀ key, pairs.lookup key = pairs'.lookup key) : pairs = pairs' := by
  induction pairs generalizing pairs' with
  | nil =>
    cases pairs' with
    | nil => rfl
    | cons pair' rest' => cases sameKeys
  | cons pair rest ih =>
    cases pairs' with
    | nil => cases sameKeys
    | cons pair' rest' =>
      obtain ⟨key, content⟩ := pair
      obtain ⟨key', content'⟩ := pair'
      obtain ⟨rfl, restKeys⟩ := List.cons.inj sameKeys
      obtain ⟨fresh, distinct⟩ := List.nodup_cons.mp distinct
      have first := same key
      rw [lookup_cons, lookup_cons, if_pos rfl, if_pos rfl] at first
      have others : ∀ k, rest.lookup k = rest'.lookup k := by
        intro k
        by_cases here : k = key
        · subst here
          have fresh' : k ∉ keys rest' := by rwa [← show keys rest = keys rest' from restKeys]
          rw [lookup_eq_none fresh, lookup_eq_none fresh']
        · have there := same k
          rwa [lookup_cons, lookup_cons, if_neg here, if_neg here] at there
      rw [Option.some.inj first, ih distinct restKeys others]

/-- Inserting pairs one after another is inserting what they come to. -/
theorem insertAll_ofList {pairs : Keyed α} (distinct : (keys pairs).Nodup) (more : List (String × α)) :
    insertAll pairs (ofList more) = insertAll pairs more := by
  refine ext_lookup (nodup_keys_insertAll distinct _) ?_ ?_
  · rw [keys_insertAll _ (nodup_keys_ofList more), keys_insertAll_ofList]
  · intro key
    have turned := lookup_perm (List.reverse_perm (ofList more)).symm (nodup_keys_ofList more) key
    rw [lookup_insertAll, lookup_insertAll, ← turned, lookup_ofList]

/-- Pairs under keys of their own are put behind those that are there. -/
theorem insertAll_eq_append {pairs more : Keyed α} (distinct : (keys (pairs ++ more)).Nodup) : insertAll pairs more = pairs ++ more := by
  induction more generalizing pairs with
  | nil => exact (List.append_nil pairs).symm
  | cons pair rest ih =>
    obtain ⟨key, content⟩ := pair
    have next : pairs ++ (key, content) :: rest = pairs ++ [(key, content)] ++ rest := split_next rfl
    have fresh : key ∉ keys pairs := by
      rw [keys_append, List.nodup_append] at distinct
      exact fun mem => distinct.2.2 key mem key List.mem_cons_self rfl
    show insertAll (insert pairs key content) rest = _
    rw [next] at distinct ⊢
    rw [insert_of_not_mem fresh, ih distinct]

end Keyed

namespace Registry

variable (r : Registry)

/-- Why a candidate can not be merged: it stands for nothing, or for something that is no object. -/
def NoObject (c : Candidate) (stop : Stop) : Prop :=
  r.resolve c = .error stop ∨ ∃ schema, r.resolve c = .ok schema ∧ (∀ layout, schema ≠ .object layout) ∧
    stop = .fault (.invalidArgument "merge" (schema.text ++ " is not an object"))

/-- Candidates that all stand for objects, of these layouts. -/
abbrev Objects (candidates : List Candidate) (layouts : List Layout) : Prop :=
  List.Forall₂ (fun c layout => r.resolve c = .ok (.object layout)) candidates layouts

variable {r}

theorem objects_iff {candidates : List Candidate} :
    (∃ layouts, r.Objects candidates layouts) ↔ ∀ c ∈ candidates, ∃ layout, r.resolve c = .ok (.object layout) := by
  induction candidates with
  | nil => exact ⟨fun _ => nofun, fun _ => ⟨[], .nil⟩⟩
  | cons c rest ih =>
    rw [List.forall_mem_cons, ← ih]
    constructor
    · rintro ⟨_, _ | ⟨resolved, others⟩⟩
      exact ⟨⟨_, resolved⟩, _, others⟩
    · rintro ⟨⟨layout, resolved⟩, layouts, others⟩
      exact ⟨layout :: layouts, .cons resolved others⟩

/-- A candidate stands for an object, or there is a reason why it does not. -/
theorem object_or_noObject (r : Registry) (c : Candidate) :
    (∃ layout, r.resolve c = .ok (.object layout)) ∨ ∃ stop, r.NoObject c stop := by
  cases resolved : r.resolve c with
  | error stop => exact Or.inr ⟨stop, Or.inl resolved⟩
  | ok schema =>
    cases schema with
    | object layout => exact Or.inl ⟨layout, rfl⟩
    | _ => exact Or.inr ⟨_, Or.inr ⟨_, resolved, nofun, rfl⟩⟩

theorem mergeFields_object {c : Candidate} {layout : Layout} (resolved : r.resolve c = .ok (.object layout)) (fields : Keyed Candidate)
    (rest : List Candidate) : r.mergeFields fields (c :: rest) = r.mergeFields (Keyed.insertAll fields layout.entries) rest := by
  rw [mergeFields, resolved]
  rfl

theorem mergeFields_noObject {c : Candidate} {stop : Stop} (no : r.NoObject c stop) (fields : Keyed Candidate) (rest : List Candidate) :
    r.mergeFields fields (c :: rest) = .error stop := by
  rcases no with unresolved | ⟨schema, resolved, other, rfl⟩
  · rw [mergeFields, unresolved]
    rfl
  · rw [mergeFields, resolved]
    cases schema with
    | object layout => exact absurd rfl (other layout)
    | _ => rfl

theorem mergeFields_append (fields : Keyed Candidate) (first rest : List Candidate) :
    r.mergeFields fields (first ++ rest) = r.mergeFields fields first >>= fun fields => r.mergeFields fields rest := by
  induction first generalizing fields with
  | nil => rfl
  | cons c first ih =>
    rw [List.cons_append]
    rcases object_or_noObject r c with ⟨layout, resolved⟩ | ⟨stop, no⟩
    · rw [mergeFields_object resolved, mergeFields_object resolved, ih]
    · rw [mergeFields_noObject no, mergeFields_noObject no]
      rfl

/-- Objects are merged by inserting all their fields. -/
theorem mergeFields_objects {candidates : List Candidate} {layouts : List Layout} (resolved : r.Objects candidates layouts)
    (fields : Keyed Candidate) :
    r.mergeFields fields candidates = .ok (Keyed.insertAll fields (layouts.flatMap Layout.entries)) := by
  induction resolved generalizing fields with
  | nil => rfl
  | cons first _ ih => rw [mergeFields_object first, ih, List.flatMap_cons, Keyed.insertAll_append]

/-- All candidates are objects, or one of them is the first that is not. -/
theorem objects_or_first (r : Registry) (candidates : List Candidate) :
    (∃ layouts, r.Objects candidates layouts) ∨
      ∃ before c after stop, candidates = before ++ c :: after ∧ (∀ c ∈ before, ∃ layout, r.resolve c = .ok (.object layout)) ∧
        r.NoObject c stop := by
  induction candidates with
  | nil => exact Or.inl ⟨[], .nil⟩
  | cons c rest ih =>
    rcases object_or_noObject r c with ⟨layout, resolved⟩ | ⟨stop, no⟩
    · rcases ih with ⟨layouts, others⟩ | ⟨before, c', after, stop, rfl, objects, no⟩
      · exact Or.inl ⟨layout :: layouts, .cons resolved others⟩
      · exact Or.inr ⟨c :: before, c', after, stop, rfl, List.forall_mem_cons.mpr ⟨⟨layout, resolved⟩, objects⟩, no⟩
    · exact Or.inr ⟨[], c, rest, stop, rfl, nofun, no⟩

theorem merge_eq (candidates : List Candidate) :
    r.merge candidates = r.mergeFields [] candidates >>= fun fields => pure (.object (.named fields)) := rfl

/-- Candidates that stand for objects are merged to the object of all their fields. -/
theorem merge_objects {candidates : List Candidate} {layouts : List Layout} (resolved : r.Objects candidates layouts) :
    r.merge candidates = .ok (.object (.named (Keyed.ofList (layouts.flatMap Layout.entries)))) := by
  rw [merge_eq, mergeFields_objects resolved]
  rfl

/-- The first candidate that is no object decides the fault. -/
theorem mergeFields_first {before : List Candidate} (objects : ∀ c ∈ before, ∃ layout, r.resolve c = .ok (.object layout))
    {c : Candidate} {stop : Stop} (no : r.NoObject c stop) (fields : Keyed Candidate) (after : List Candidate) :
    r.mergeFields fields (before ++ c :: after) = .error stop := by
  induction before generalizing fields with
  | nil => exact mergeFields_noObject no fields after
  | cons first before ih =>
    obtain ⟨⟨layout, resolved⟩, objects⟩ := List.forall_mem_cons.mp objects
    rw [List.cons_append, mergeFields_object resolved, ih objects]

theorem merge_first {before : List Candidate} (objects : ∀ c ∈ before, ∃ layout, r.resolve c = .ok (.object layout)) {c : Candidate}
    {stop : Stop} (no : r.NoObject c stop) (after : List Candidate) : r.merge (before ++ c :: after) = .error stop := by
  rw [merge_eq, mergeFields_first objects no]
  rfl

/-- Merged objects are merged like the candidates that they were merged from. -/
theorem mergeFields_groups {fields : Keyed Candidate} (distinct : (Keyed.keys fields).Nodup) (groups : List (List Candidate)) :
    (groups.mapM r.merge >>= r.mergeFields fields) = r.mergeFields fields groups.flatten := by
  induction groups generalizing fields with
  | nil => rfl
  | cons group groups ih =>
    rw [List.mapM_cons, List.flatten_cons, mergeFields_append]
    rcases objects_or_first r group with ⟨layouts, resolved⟩ | ⟨before, c, after, stop, rfl, objects, no⟩
    · -- The group is one object, which brings in what its pairs come to.
      have merged : ∀ rest, r.mergeFields fields (.object (.named (Keyed.ofList (layouts.flatMap Layout.entries))) :: rest) =
          r.mergeFields (Keyed.insertAll fields (layouts.flatMap Layout.entries)) rest := by
        intro rest
        rw [mergeFields_object rfl, Layout.entries, Keyed.insertAll_ofList distinct]
      rw [merge_objects resolved, mergeFields_objects resolved]
      show ((groups.mapM r.merge >>= fun merges => pure (_ :: merges)) >>= r.mergeFields fields) = r.mergeFields _ groups.flatten
      rw [bind_assoc, ← ih (Keyed.nodup_keys_insertAll distinct _)]
      simp only [pure_bind, merged]
    · rw [merge_first objects no, mergeFields_first objects no]
      rfl

/-- Merging is an ordered union, in which the last one wins. It succeeds exactly when every candidate stands for an object, and otherwise
fails for the reason of the first one that does not. The fields stand in the order in which their keys first come up, each with the schema
that stands under its key last. And it does not matter whether candidates are merged at once or in groups, and then the groups. -/
theorem merge_ordered (r : Registry) :
    (∀ candidates, (∃ merged, r.merge candidates = .ok merged) ↔
        ∀ c ∈ candidates, ∃ layout, r.resolve c = .ok (.object layout)) ∧
      (∀ candidates stop, r.merge candidates = .error stop ↔ ∃ before c after, candidates = before ++ c :: after ∧
        (∀ c ∈ before, ∃ layout, r.resolve c = .ok (.object layout)) ∧ r.NoObject c stop) ∧
      (∀ candidates layouts, r.Objects candidates layouts →
        ∃ fields, r.merge candidates = .ok (.object (.named fields)) ∧
          Keyed.keys fields = (layouts.flatMap Layout.keys).eraseDups ∧
          ∀ key, fields.lookup key = (layouts.flatMap Layout.entries).reverse.lookup key) ∧
      ∀ groups : List (List Candidate), (groups.mapM r.merge >>= r.merge) = r.merge groups.flatten := by
  refine ⟨fun candidates => ?_, fun candidates stop => ?_, fun candidates layouts resolved => ?_, fun groups => ?_⟩
  · rw [← objects_iff]
    constructor
    · rintro ⟨merged, h⟩
      rcases objects_or_first r candidates with all | ⟨before, c, after, stop, rfl, objects, no⟩
      · exact all
      · rw [merge_first objects no] at h
        cases h
    · rintro ⟨layouts, resolved⟩
      exact ⟨_, merge_objects resolved⟩
  · constructor
    · intro h
      rcases objects_or_first r candidates with ⟨layouts, resolved⟩ | ⟨before, c, after, stop', rfl, objects, no⟩
      · rw [merge_objects resolved] at h
        cases h
      · rw [merge_first objects no] at h
        cases h
        exact ⟨before, c, after, rfl, objects, no⟩
    · rintro ⟨before, c, after, rfl, objects, no⟩
      exact merge_first objects no after
  · have keys : layouts.flatMap Layout.keys = Keyed.keys (layouts.flatMap Layout.entries) := (List.map_flatMap ..).symm
    refine ⟨_, merge_objects resolved, ?_, Keyed.lookup_ofList _⟩
    rw [Keyed.keys_ofList, keys]
  · have distinct : (Keyed.keys ([] : Keyed Candidate)).Nodup := List.nodup_nil
    have grouped := mergeFields_groups (r := r) distinct groups
    have merges : r.merge = fun candidates => r.mergeFields [] candidates >>= fun fields => pure (.object (.named fields)) := rfl
    rw [merge_eq, ← grouped, bind_assoc]
    exact congrArg (groups.mapM r.merge >>= ·) merges

/-! ## A header and its next version -/

/-- A version, a length that has become wider, and flags that are new. -/
def headers : List Layout :=
  [.named [("version", .number .uint8), ("length", .number .uint8)], .named [("length", .number .uint16), ("flags", .number .uint8)]]

/-- The merged header has the wider length, where the other one was. -/
theorem merge_ordered_headers :
    ∃ fields, standard.merge (headers.map Candidate.object) = .ok (.object (.named fields)) ∧
      Keyed.keys fields = ["version", "length", "flags"] ∧ fields.lookup "length" = some (.number .uint16) := by
  obtain ⟨-, -, contents, -⟩ := merge_ordered standard
  have objects : standard.Objects (headers.map Candidate.object) headers := .cons rfl (.cons rfl .nil)
  obtain ⟨fields, merged, keys, found⟩ := contents _ _ objects
  exact ⟨fields, merged, keys.trans (by decide), (found "length").trans rfl⟩

end Registry

end WireLayout
