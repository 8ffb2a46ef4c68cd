import WireLayout.Codec
import WireLayout.Proofs.Contents
import WireLayout.Proofs.Resolution

/-!
# The order of registrations

Names that are brought into a registry once each may come in any order. What a table has for a name does not depend on where the name
stands in it (`entryIn_performAll_perm`), and resolution asks a table for nothing else, not even when it follows aliases
(`aliasEnd_congr`). A run asks a registry what candidates stand for, and whether a name is registered, so two registries that
answer alike are interchangeable in every run (`Registry.Alike`, `Codec.pack_alike`, `Codec.unpack_alike`).
-/

namespace WireLayout

/-! ## Keys once each -/

namespace Keyed

variable {α : Type}

/-- Inserting distinct keys adds those that are new, in their order. -/
theorem keys_insertAll (pairs : Keyed α) {more : Keyed α} (distinct : (keys more).Nodup) :
    keys (insertAll pairs more) = keys pairs ++ (keys more).filter (· ∉ keys pairs) := by
  induction more generalizing pairs with
  | nil => exact (List.append_nil _).symm
  | cons pair rest ih =>
    obtain ⟨key, content⟩ := pair
    obtain ⟨fresh, distinct⟩ := List.nodup_cons.mp distinct
    have rest_keys := ih (insert pairs key content) distinct
    show keys (insertAll (insert pairs key content) rest) = keys pairs ++ (key :: keys rest).filter (· ∉ keys pairs)
    rw [rest_keys, keys_insert]
    by_cases known : key ∈ keys pairs
    · simp [known]
    · -- The new key is none of the others, so that the same of those are new.
      have same : (keys rest).filter (· ∉ keys pairs ++ [key]) = (keys rest).filter (· ∉ keys pairs) := by
        refine List.filter_congr ?_
        intro other hother
        have apart : other ≠ key := fun h => fresh (h ▸ hother)
        simp [apart]
      rw [if_neg known, same]
      simp [known]

end Keyed

namespace Registry

/-! ## What resolution asks a table -/

section

variable {entry : String → Option Entry} {table table' : Table}

/-- Following a chain stops in one way only. -/
theorem Ends.unique {a : String} {stop stop' : AliasEnd} (h : Ends entry a stop) (h' : Ends entry a stop') : stop = stop' := by
  have atSchema : ∀ {t schema}, entry t = some (.schema schema) → ∀ target, entry t ≠ some (.aliasOf target) := by
    intro t schema found target
    simp [found]
  have atMissing : ∀ {t}, entry t = none → ∀ target, entry t ≠ some (.aliasOf target) := by
    intro t found target
    simp [found]
  cases h with
  | schema leads found =>
    cases h' with
    | schema leads' found' =>
      obtain rfl := leads.unique (atSchema found) leads' (atSchema found')
      rw [found] at found'
      cases found'
      rfl
    | missing leads' found' =>
      obtain rfl := leads.unique (atSchema found) leads' (atMissing found')
      simp [found] at found'
    | cyclic round => exact absurd round (leads.not_revisits (atSchema found))
  | missing leads found =>
    cases h' with
    | schema leads' found' =>
      obtain rfl := leads.unique (atMissing found) leads' (atSchema found')
      simp [found] at found'
    | missing leads' found' =>
      obtain rfl := leads.unique (atMissing found) leads' (atMissing found')
      rfl
    | cyclic round => exact absurd round (leads.not_revisits (atMissing found))
  | cyclic round =>
    cases h' with
    | schema leads' found' => exact absurd round (leads'.not_revisits (atSchema found'))
    | missing leads' found' => exact absurd round (leads'.not_revisits (atMissing found'))
    | cyclic _ => rfl

/-- Aliases end alike in tables that have the same for every name, whatever else tells the tables apart. -/
theorem aliasEnd_congr (same : entryIn table' = entryIn table) (name : String) : aliasEnd table' name = aliasEnd table name := by
  have ends := aliasEnd_ends table' name
  rw [same] at ends
  exact ends.unique (aliasEnd_ends table name)

theorem standardPatterns_congr (same : entryIn table' = entryIn table) {pattern : Pattern} (known : pattern ∈ standardPatterns)
    (c : Candidate) : pattern table' c = pattern table c := by
  simp only [standardPatterns, List.mem_cons, List.not_mem_nil, or_false] at known
  rcases known with rfl | rfl | rfl
  · cases c with
    | name name => simp only [aliasPattern, aliasEnd_congr same]
    | fields layout => rfl
    | schema schema => rfl
  · rfl
  · rfl

theorem replace?_congr {patterns : List Pattern} (same : ∀ pattern ∈ patterns, ∀ c, pattern table' c = pattern table c)
    (skipped : Option Nat) (c : Candidate) (place : Nat) :
    replace? table' skipped c place patterns = replace? table skipped c place patterns := by
  induction patterns generalizing place with
  | nil => rfl
  | cons pattern rest ih =>
    have others := fun place => ih (fun pattern known => same pattern (List.mem_cons_of_mem _ known)) place
    simp only [replace?, same pattern List.mem_cons_self, others]

end

variable {r r' : Registry}

/-- Registries whose patterns see no difference resolve alike. -/
theorem resolve_congr (patterns : r'.patterns = r.patterns) (limits : r'.limits = r.limits)
    (same : ∀ pattern ∈ r.patterns, ∀ c, pattern r'.table c = pattern r.table c) (c : Candidate) : r'.resolve c = r.resolve c := by
  have scan : ∀ identifier replacements current seen last,
      r'.resolveFrom identifier replacements current seen last = r.resolveFrom identifier replacements current seen last := by
    intro identifier replacements
    induction replacements with
    | zero => exact fun _ _ _ => rfl
    | succ replacements ih =>
      intro current seen last
      simp only [resolveFrom, patterns, replace?_congr same, ih]
  cases c with
  | schema schema => rfl
  | name name => simp only [resolve, limits, scan]
  | fields layout => simp only [resolve, limits, scan]

/-- Two registries that answer alike whatever a run asks. -/
structure Alike (r r' : Registry) : Prop where
  resolve : ∀ c, r'.resolve c = r.resolve c
  contains : ∀ name, r'.contains name = r.contains name
  limits : r'.limits = r.limits

/-- With the standard patterns, all that counts is what the tables have for each name. -/
theorem alike_of_entries (standardOnly : r.patterns = standardPatterns) (patterns : r'.patterns = r.patterns)
    (limits : r'.limits = r.limits) (same : entryIn r'.table = entryIn r.table) : Alike r r' where
  resolve := by
    refine resolve_congr patterns limits ?_
    intro pattern known
    rw [standardOnly] at known
    exact standardPatterns_congr same known
  contains name := congrArg Option.isSome (congrFun same name)
  limits := limits

end Registry

/-! ## Runs under registries that answer alike -/

section

variable {r r' : Registry} (h : r.Alike r') (options : Options)

include h

namespace Walk

variable {μ : Type}

theorem resolve_alike (c : Candidate) : (resolve ⟨r', options⟩ c : Walk μ Schema) = resolve ⟨r, options⟩ c := by
  funext s
  simp only [resolve, h.resolve]

theorem resolveNumber_alike (c : Candidate) (fault : Schema → Fault) :
    (resolveNumber ⟨r', options⟩ c fault : Walk μ Number) = resolveNumber ⟨r, options⟩ c fault := by
  simp only [resolveNumber, resolve_alike h]

end Walk

theorem Unpacking.candidate_alike (run : Schema → Unpacking Value) :
    Unpacking.candidate ⟨r', options⟩ run = Unpacking.candidate ⟨r, options⟩ run := by
  funext c
  simp only [Unpacking.candidate, Walk.resolve_alike h]

theorem Packing.candidate_alike (run : Schema → Value → Packing Unit) :
    Packing.candidate ⟨r', options⟩ run = Packing.candidate ⟨r, options⟩ run := by
  funext c v
  simp only [Packing.candidate, Walk.resolve_alike h]

theorem Count.unpack_alike (count : Count) : count.unpack ⟨r', options⟩ = count.unpack ⟨r, options⟩ := by
  cases count with
  | prefixed number => simp only [Count.unpack, Walk.resolveNumber_alike h, Unpacking.number]
  | fixed _ | auto => rfl

theorem Count.pack_alike (count : Count) (n : Nat) : count.pack ⟨r', options⟩ n = count.pack ⟨r, options⟩ n := by
  cases count with
  | prefixed number => simp only [Count.pack, Walk.resolveNumber_alike h]
  | fixed _ | auto => rfl

theorem Region.unpack_alike (size : Count) : Region.unpack ⟨r', options⟩ size = Region.unpack ⟨r, options⟩ size := by
  simp only [Region.unpack, Count.unpack_alike h]

theorem Region.pack_alike (size : Count) (bytes : Bytes) :
    Region.pack ⟨r', options⟩ size bytes = Region.pack ⟨r, options⟩ size bytes := by
  cases size with
  | fixed n => rfl
  | prefixed _ | auto => simp only [Region.pack, Count.pack_alike h]

namespace Elements

theorem unpack_alike (run : Schema → Unpacking Value) (item : Candidate) (count : Option Nat) :
    unpack ⟨r', options⟩ run item count = unpack ⟨r, options⟩ run item count := by
  simp only [unpack, Walk.resolve_alike h, unpackNumbers]

theorem pack_alike (run : Schema → Value → Packing Unit) (item : Candidate) (items : List Value) (count : Nat) :
    pack ⟨r', options⟩ run item items count = pack ⟨r, options⟩ run item items count := by
  rw [pack, pack, Walk.resolve_alike h]
  rfl

end Elements

theorem Sibling.countBytes_alike (run : Schema → Value → Packing Unit) (counter : Candidate) (n : Nat) :
    countBytes ⟨r', options⟩ run counter n = countBytes ⟨r, options⟩ run counter n := by
  rw [countBytes, countBytes, Walk.resolve_alike h]

namespace Extension

/-- A program that reads can ask a registry for candidates, and whether it has a name. -/
theorem unpack_alike (run : Schema → Unpacking Value) (reader : Reader) :
    Extension.unpack ⟨r', options⟩ run reader = Extension.unpack ⟨r, options⟩ run reader := by
  have view : readView ⟨r', options⟩ = readView ⟨r, options⟩ := by
    funext s
    simp only [readView, viewOf, funext h.contains]
  induction reader using Extension.unpack.induct with
  | case1 v => rfl
  | case2 fault => rfl
  | case3 n next ih => simp only [Extension.unpack, ih]
  | case4 position next ih => simp only [Extension.unpack, ih]
  | case5 next ih => simp only [Extension.unpack, view, ih]
  | case6 c next ih => simp only [Extension.unpack, Unpacking.candidate_alike h, ih]
  | case7 kind next ih => simp only [Extension.unpack, ih]

/-- So can a program that writes. -/
theorem pack_alike (run : Schema → Value → Packing Unit) (writer : Writer) :
    Extension.pack ⟨r', options⟩ run writer = Extension.pack ⟨r, options⟩ run writer := by
  have view : writeView ⟨r', options⟩ = writeView ⟨r, options⟩ := by
    funext s
    simp only [writeView, viewOf, funext h.contains]
  induction writer using Extension.pack.induct with
  | case1 => rfl
  | case2 fault => rfl
  | case3 bytes next ih => simp only [Extension.pack, ih]
  | case4 next ih => simp only [Extension.pack, view, ih]
  | case5 c v next ih => simp only [Extension.pack, Packing.candidate_alike h, ih]
  | case6 kind next ih => simp only [Extension.pack, ih]

end Extension

namespace Codec

theorem unpackStep_alike (run : Schema → Unpacking Value) (schema : Schema) :
    unpackStep ⟨r', options⟩ run schema = unpackStep ⟨r, options⟩ run schema := by
  have candidate := Unpacking.candidate_alike h options run
  cases schema with
  | number kind => rfl
  | array item count => simp only [unpackStep, Elements.unpackArray, Count.unpack_alike h, Elements.unpack_alike h]
  | string size => simp only [unpackStep, Text.unpack, Region.unpack_alike h, Unpacking.decode]
  | cstring size => simp only [unpackStep, Text.unpackTerminated, Region.unpack_alike h, Unpacking.decode]
  | object layout => simp only [unpackStep, candidate]
  | union layout size => simp only [unpackStep, candidate]
  | enums names base => simp only [unpackStep, Enumeration.unpack, Walk.resolveNumber_alike h, Unpacking.number]
  | depend field selector => simp only [unpackStep, Sibling.unpackDepend, candidate]
  | link field item => simp only [unpackStep, Sibling.unpackLink, Elements.unpack_alike h]
  | computed operator v => rfl
  | exit => rfl
  | parse encode decode inner size => simp only [unpackStep, Transform.unpack, Region.unpack_alike h, candidate]
  | custom extension => exact Extension.unpack_alike h options run extension.read

theorem packStep_alike (run : Schema → Value → Packing Unit) (schema : Schema) (v : Value) :
    packStep ⟨r', options⟩ run schema v = packStep ⟨r, options⟩ run schema v := by
  have candidate := Packing.candidate_alike h options run
  cases schema with
  | number kind => rfl
  | array item count => simp only [packStep, Elements.packArray, Count.pack_alike h, Elements.pack_alike h]
  | string size => simp only [packStep, Text.pack, Region.pack_alike h, Packing.encode]
  | cstring size => simp only [packStep, Text.packTerminated, Region.pack_alike h, Packing.encode]
  | object layout => simp only [packStep, candidate]
  | union layout size => simp only [packStep, candidate]
  | enums names base => simp only [packStep, Enumeration.pack, Walk.resolveNumber_alike h, Packing.number]
  | depend field selector => simp only [packStep, Sibling.packDepend, candidate]
  | link field item => simp only [packStep, Sibling.packLink, Sibling.countBytes_alike h, Elements.pack_alike h]
  | computed operator w => rfl
  | exit => rfl
  | parse encode decode inner size => simp only [packStep, Transform.pack, Region.pack_alike h, candidate]
  | custom extension => exact Extension.pack_alike h options run (extension.write v)

theorem unpack_alike (depth : Nat) : unpack ⟨r', options⟩ depth = unpack ⟨r, options⟩ depth := by
  induction depth with
  | zero => rfl
  | succ depth ih =>
    funext schema
    rw [unpack, unpack, ih]
    exact unpackStep_alike h options _ schema

theorem pack_alike (depth : Nat) : pack ⟨r', options⟩ depth = pack ⟨r, options⟩ depth := by
  induction depth with
  | zero => rfl
  | succ depth ih =>
    funext schema v
    rw [pack, pack, ih]
    exact packStep_alike h options _ schema v

end Codec

namespace Registry

theorem packWith_alike (c : Candidate) (v : Value) : r'.packWith c v options = r.packWith c v options := by
  simp only [packWith, Codec.packCandidate, h.limits, Codec.pack_alike h, Packing.candidate_alike h]

theorem unpackWith_alike (c : Candidate) (data : Bytes) : r'.unpackWith c data options = r.unpackWith c data options := by
  simp only [unpackWith, Codec.unpackCandidate, h.limits, Codec.unpack_alike h, Unpacking.candidate_alike h]

end Registry

end

/-! ## Registrations in another order -/

namespace Registry

/-- The names that registrations bring in, in order. -/
def broughtIn (registrations : List Registration) : List String := Keyed.keys (registrations.flatMap Registration.entries)

section

variable {registrations registrations' : List Registration} (order : registrations.Perm registrations')
  (distinct : (broughtIn registrations).Nodup) (start : Registry)

include order distinct

/-- In either order a name is found for what it was registered for, or for what it stood for at the start. -/
theorem entryIn_performAll_perm :
    entryIn (start.performAll registrations').table = entryIn (start.performAll registrations).table := by
  funext name
  have entries := order.flatMap_right Registration.entries
  have last_first := (List.reverse_perm _).trans (entries.trans (List.reverse_perm _).symm)
  have distinct' : (Keyed.keys (registrations.flatMap Registration.entries).reverse).Nodup :=
    (Keyed.keys_perm (List.reverse_perm _)).nodup_iff.mpr distinct
  rw [performAll_eq_enter, performAll_eq_enter]
  show (Keyed.insertAll start.table _).lookup name = (Keyed.insertAll start.table _).lookup name
  rw [Keyed.lookup_insertAll, Keyed.lookup_insertAll, Keyed.lookup_perm last_first distinct']

/-- In either order the same names are known. -/
theorem names_performAll_perm : (start.performAll registrations).names.Perm (start.performAll registrations').names := by
  have keys := Keyed.keys_perm (order.flatMap_right Registration.entries)
  have distinct' : (Keyed.keys (registrations'.flatMap Registration.entries)).Nodup := keys.nodup_iff.mp distinct
  rw [performAll_eq_enter, performAll_eq_enter]
  show (Keyed.keys (Keyed.insertAll start.table _)).Perm (Keyed.keys (Keyed.insertAll start.table _))
  rw [Keyed.keys_insertAll _ distinct, Keyed.keys_insertAll _ distinct']
  exact (keys.filter _).append_left _

theorem alike_performAll_perm (standardOnly : start.patterns = standardPatterns) :
    Alike (start.performAll registrations) (start.performAll registrations') := by
  have same := entryIn_performAll_perm order distinct start
  rw [performAll_eq_enter, performAll_eq_enter] at same ⊢
  exact alike_of_entries standardOnly rfl rfl same

end

/-- Registrations that bring in each name once may be made in any order, into any registry with the standard patterns, whether they
replace names that it knows or refer to each other forwards, backwards or in circles. Every candidate then stands for the same, or
fails for the same reason; all that is packed and unpacked is the same; and the same names are known, if in another order. -/
theorem performAll_perm {start : Registry} (standardOnly : start.patterns = standardPatterns)
    {registrations registrations' : List Registration} (order : registrations.Perm registrations')
    (distinct : (broughtIn registrations).Nodup) :
    (∀ c, (start.performAll registrations').resolve c = (start.performAll registrations).resolve c) ∧
    (∀ c v options, (start.performAll registrations').packWith c v options = (start.performAll registrations).packWith c v options) ∧
    (∀ c data options,
      (start.performAll registrations').unpackWith c data options = (start.performAll registrations).unpackWith c data options) ∧
    (∀ c v, (start.performAll registrations').pack c v = (start.performAll registrations).pack c v) ∧
    (∀ c data, (start.performAll registrations').unpack c data = (start.performAll registrations).unpack c data) ∧
    (start.performAll registrations').names.Perm (start.performAll registrations).names := by
  have alike := alike_performAll_perm order distinct start standardOnly
  have defaults : (start.performAll registrations').defaults = (start.performAll registrations).defaults := by
    rw [performAll_eq_enter, performAll_eq_enter]
    rfl
  refine ⟨alike.resolve, fun c v options => ?_, fun c data options => ?_, fun c v => ?_, fun c data => ?_, ?_⟩
  · exact packWith_alike alike options c v
  · exact unpackWith_alike alike options c data
  · rw [pack, pack, defaults]
    exact packWith_alike alike _ c v
  · rw [unpack, unpack, defaults]
    exact unpackWith_alike alike _ c data
  · exact (names_performAll_perm order distinct start).symm

/-- Trees, whose parts are trees: names that refer to names that come later, one of them back to the first, and a preset name that is
replaced. -/
def treeRegistrations : List Registration :=
  [.register "tree" (.fields (.named [("label", .name "byte"), ("parts", .name "forest")])), .addAlias "forest" "trees",
   .register "trees" (.countedArray (.name "tree") .uint8), .register "byte" (.number .uint16)]

def tree : Value :=
  .record [("label", .int 1), ("parts", .list [.record [("label", .int 2), ("parts", .list [])]])]

/-- Backwards, the same registrations give trees as well. -/
theorem performAll_perm_tree :
    standard.patterns = standardPatterns ∧ (broughtIn treeRegistrations).Nodup ∧
      (standard.performAll treeRegistrations.reverse).pack (.name "tree") tree = .ok #[1, 0, 1, 2, 0, 0] := by
  have distinct : (broughtIn treeRegistrations).Nodup := List.nodup_iff_pairwise_ne.mpr (by decide)
  have standardOnly : standard.patterns = standardPatterns := rfl
  obtain ⟨-, -, -, packed, -, -⟩ := performAll_perm standardOnly (List.reverse_perm treeRegistrations).symm distinct
  refine ⟨standardOnly, distinct, ?_⟩
  rw [packed]
  rfl

end Registry

end WireLayout
