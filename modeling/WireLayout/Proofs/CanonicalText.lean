import Mathlib
import WireLayout.Proofs.Discerning

/-!
# Canonical texts identify candidates

Two candidates have the same text exactly when they are the same tree (`Candidate.text_eq_iff`), but for one thing: a number kind is
written like a name (`Candidate.byName`). Their names have no quote, and their keys are words (`Candidate.Legible`); selectors, operators,
transcoders and user-defined kinds are written in ways of their own, and are left out. Only candidates whose texts start with the same
word and the same mark have to be told apart (`Candidate.start`), and these are of the same kind.
-/

namespace WireLayout

/-! ## Candidates with texts that can be read -/

mutual

/-- Names have no quote, keys are words, and there is nothing inside that is written in a way of its own. -/
def Candidate.Legible : Candidate → Prop
  | .name n => Unquoted n
  | .fields layout => layout.Legible
  | .schema schema => schema.Legible

def Layout.Legible : Layout → Prop
  | .named fields => LegibleFields fields
  | .positional items => LegibleItems items

def LegibleFields : List (String × Candidate) → Prop
  | [] => True
  | (key, candidate) :: rest => Registry.IsWord key.toList ∧ candidate.Legible ∧ LegibleFields rest

def LegibleItems : List Candidate → Prop
  | [] => True
  | candidate :: rest => candidate.Legible ∧ LegibleItems rest

def Count.Legible : Count → Prop
  | .prefixed number => number.Legible
  | .fixed _ | .auto => True

def Schema.Legible : Schema → Prop
  | .number _ | .exit => True
  | .array item count => item.Legible ∧ count.Legible
  | .string size | .cstring size => size.Legible
  | .object layout | .union layout _ => layout.Legible
  | .enums names base => (∀ entry ∈ names, Registry.IsWord entry.1.toList) ∧ base.Legible
  | .link field item => Unquoted field ∧ item.Legible
  | .depend _ _ | .computed _ _ | .parse _ _ _ _ | .custom _ => False

end

mutual

/-- The same candidate with every number kind written as its name. -/
def Candidate.byName : Candidate → Candidate
  | .name n => .name n
  | .fields layout => .fields layout.byName
  | .schema schema => schema.byName

def Layout.byName : Layout → Layout
  | .named fields => .named (fieldsByName fields)
  | .positional items => .positional (itemsByName items)

def fieldsByName : List (String × Candidate) → List (String × Candidate)
  | [] => []
  | (key, candidate) :: rest => (key, candidate.byName) :: fieldsByName rest

def itemsByName : List Candidate → List Candidate
  | [] => []
  | candidate :: rest => candidate.byName :: itemsByName rest

def Count.byName : Count → Count
  | .prefixed number => .prefixed number.byName
  | count => count

/-- A number kind becomes its name; any other schema stays one, with its children written so. -/
def Schema.byName : Schema → Candidate
  | .number kind => .name kind.name
  | .array item count => .schema (.array item.byName count.byName)
  | .string size => .schema (.string size.byName)
  | .cstring size => .schema (.cstring size.byName)
  | .object layout => .schema (.object layout.byName)
  | .union layout size => .schema (.union layout.byName size)
  | .enums names base => .schema (.enums names base.byName)
  | .link field item => .schema (.link field item.byName)
  | schema => .schema schema

end

theorem fieldTexts_eq (fields : List (String × Candidate)) :
    fieldTexts fields = fields.map fun field => field.1 ++ ":" ++ field.2.text := by
  induction fields with
  | nil => rfl
  | cons field rest ih => rw [fieldTexts, ih, List.map_cons]

theorem itemTexts_eq (items : List Candidate) : itemTexts items = items.map Candidate.text := by
  induction items with
  | nil => rfl
  | cons item rest ih => rw [itemTexts, ih, List.map_cons]

theorem fieldsByName_eq (fields : List (String × Candidate)) :
    fieldsByName fields = fields.map fun field => (field.1, field.2.byName) := by
  induction fields with
  | nil => rfl
  | cons field rest ih => rw [fieldsByName, ih, List.map_cons]

theorem itemsByName_eq (items : List Candidate) : itemsByName items = items.map Candidate.byName := by
  induction items with
  | nil => rfl
  | cons item rest ih => rw [itemsByName, ih, List.map_cons]

/-! ## The text does not show whether a number is a name -/

mutual

theorem Candidate.text_byName : (c : Candidate) → c.byName.text = c.text
  | .name _ => rfl
  | .fields layout => layout.text_byName
  | .schema schema => schema.text_byName

theorem Layout.text_byName : (layout : Layout) → layout.byName.text = layout.text
  | .named fields => by rw [Layout.byName, Layout.text, Layout.text, fieldTexts_byName fields]
  | .positional items => by rw [Layout.byName, Layout.text, Layout.text, itemTexts_byName items]

theorem fieldTexts_byName : (fields : List (String × Candidate)) → fieldTexts (fieldsByName fields) = fieldTexts fields
  | [] => rfl
  | (key, candidate) :: rest => by rw [fieldsByName, fieldTexts, fieldTexts, candidate.text_byName, fieldTexts_byName rest]

theorem itemTexts_byName : (items : List Candidate) → itemTexts (itemsByName items) = itemTexts items
  | [] => rfl
  | candidate :: rest => by rw [itemsByName, itemTexts, itemTexts, candidate.text_byName, itemTexts_byName rest]

theorem Count.text_byName : (count : Count) → count.byName.text = count.text
  | .fixed _ | .auto => rfl
  | .prefixed number => number.text_byName

theorem Schema.text_byName : (schema : Schema) → schema.byName.text = schema.text
  | .number _ => rfl
  | .array item count => by simp only [Schema.byName, Candidate.text, Schema.text, item.text_byName, count.text_byName]
  | .string size | .cstring size => by simp only [Schema.byName, Candidate.text, Schema.text, size.text_byName]
  | .object layout | .union layout size => by simp only [Schema.byName, Candidate.text, Schema.text, layout.text_byName]
  | .enums names base => by simp only [Schema.byName, Candidate.text, Schema.text, base.text_byName]
  | .link field item => by simp only [Schema.byName, Candidate.text, Schema.text, item.text_byName]
  | .exit | .depend _ _ | .computed _ _ | .parse _ _ _ _ | .custom _ => rfl

end

/-! ## How the texts of candidates start -/

/-- The names of the kinds of schemas whose texts are told apart. -/
def kindNames : List String := ["number", "array", "string", "cstring", "object", "union", "enums", "link", "exit"]

theorem Schema.kindName_mem {schema : Schema} (h : schema.Legible) : schema.kindName ∈ kindNames := by
  cases schema with
  | depend field selector => exact h.elim
  | computed operator value => exact h.elim
  | parse encode decode inner size => exact h.elim
  | custom extension => exact h.elim
  | _ => simp [kindName, kindNames]

/-- They are words, and not made of digits only. -/
theorem bare_of_mem_kindNames : ∀ name ∈ kindNames, IsBare name ∧ ∃ c ∈ name.toList, c.isDigit = false := by
  simp [kindNames, IsBare, isWordChar, Registry.isNameChar, Char.isAlphanum, Char.isAlpha, Char.isLower, Char.isDigit]

/-- The word and the mark that the text of a candidate starts with. -/
def Candidate.start : Candidate → String × Char
  | .name _ | .schema (.number _) => ("", '\x27')
  | .fields (.named _) => ("", '\x7b')
  | .fields (.positional _) => ("", '[')
  | .schema s => (s.kindName, '(')

theorem Candidate.headed {c : Candidate} (h : c.Legible) : Headed c.start.1 c.start.2 c.text := by
  cases c with
  | name n => exact .quoted n
  | fields layout =>
    cases layout with
    | named fields => exact .braced _
    | positional items => exact .bracketed _
  | schema schema =>
    have bare := (bare_of_mem_kindNames _ (Schema.kindName_mem h)).1
    cases schema with
    | number kind => exact .quoted kind.name
    | depend field selector => exact h.elim
    | computed operator value => exact h.elim
    | parse encode decode inner size => exact h.elim
    | custom extension => exact h.elim
    | _ => exact .called bare _

/-- Only candidates whose texts start alike have to be told apart. -/
theorem Candidate.discerned_of_start {P : Prop} {a b : Candidate} (ha : a.Legible) (hb : b.Legible)
    (h : a.start = b.start → Discerns P a.text b.text) : Discerns P a.text b.text :=
  .of_headed (headed ha) (headed hb) fun words marks => h (Prod.ext words marks)

/-- Schemas whose texts start alike are of the same kind. -/
theorem Schema.kindName_of_start {schema schema' : Schema} (same : (Candidate.schema schema).start = (Candidate.schema schema').start) :
    schema.kindName = schema'.kindName := by
  cases schema with
  | number kind =>
    cases schema' with
    | number kind' => rfl
    | _ => simp [Candidate.start] at same
  | _ =>
    cases schema' with
    | number kind => simp [Candidate.start] at same
    | _ => exact congrArg Prod.fst same

theorem Candidate.startsApart {c : Candidate} (h : c.Legible) : StartsApart ']' c.text := by
  refine ⟨_, _, headed h, fun _ => ?_⟩
  cases c with
  | name n => simp [start]
  | fields layout => cases layout <;> simp [start]
  | schema schema => cases schema <;> simp [start]

/-- What is written like a name is a name, or the number kind of this name. -/
theorem Candidate.quoted_of_start {c : Candidate} (h : c.Legible) (quote : c.start = ("", '\x27')) :
    ∃ n, Unquoted n ∧ c.text = quoted n ∧ c.byName = .name n := by
  cases c with
  | name n => exact ⟨n, h, rfl, rfl⟩
  | fields layout => cases layout <;> simp [start] at quote
  | schema schema =>
    cases schema with
    | number kind => exact ⟨kind.name, by cases kind <;> simp [Unquoted, Number.name], rfl, rfl⟩
    | _ => simp [start] at quote

theorem Candidate.discerned_quoted {a b : Candidate} (ha : a.Legible) (hb : b.Legible) (quote : a.start = ("", '\x27')) :
    Discerns (a.byName = b.byName) a.text b.text := by
  refine discerned_of_start ha hb fun same => ?_
  obtain ⟨n, plain, text, byName⟩ := quoted_of_start ha quote
  obtain ⟨n', plain', text', byName'⟩ := quoted_of_start hb (same ▸ quote)
  rw [text, text', byName, byName']
  exact (Discerns.quoted plain plain').imp (congrArg Candidate.name)

/-- A word that is neither empty nor the name of a kind is not what the text of a candidate starts with. -/
theorem Candidate.discerned_bare {P : Prop} {c : Candidate} (h : c.Legible) {word : String} (bare : IsBare word) (some : word ≠ "")
    (other : word ∉ kindNames) : Discerns P word c.text := by
  refine .bare_headed bare (headed h) ?_
  cases c with
  | name n => exact some
  | fields layout => cases layout <;> exact some
  | schema schema =>
    have different : word ≠ schema.kindName := fun same => other (same ▸ Schema.kindName_mem h)
    cases schema with
    | number kind => exact some
    | _ => exact different

theorem toString_nat_ne {word : String} (other : ∃ c ∈ word.toList, c.isDigit = false) (n : Nat) : toString n ≠ word := by
  rintro rfl
  obtain ⟨c, hc, letter⟩ := other
  have digit : c.isDigit = true := Nat.isDigit_of_mem_toDigits (by decide) (by decide) (Nat.toList_repr ▸ hc)
  exact Bool.false_ne_true (letter.symm.trans digit)

theorem toString_nat_ne_null (n : Nat) : toString n ≠ "null" := toString_nat_ne ⟨'n', by simp, rfl⟩ n

theorem Candidate.discerned_digits {P : Prop} (c : Candidate) (h : c.Legible) (n : Nat) : Discerns P (toString n) c.text := by
  refine discerned_bare h (.toString_nat n) (fun empty => ?_) fun kind => toString_nat_ne (bare_of_mem_kindNames _ kind).2 n rfl
  have text : (toString n).toList = Nat.toDigits 10 n := Nat.toList_repr
  rw [empty] at text
  exact Nat.toDigits_ne_nil text.symm

theorem null_bare : IsBare "null" := by
  simp [IsBare, isWordChar, Registry.isNameChar, Char.isAlphanum, Char.isAlpha, Char.isLower]

theorem Candidate.discerned_null {P : Prop} (c : Candidate) (h : c.Legible) : Discerns P "null" c.text :=
  discerned_bare h null_bare (by decide) (by simp [kindNames])

/-! ## Candidates are told apart -/

theorem legibleFields_iff (fields : List (String × Candidate)) :
    LegibleFields fields ↔ ∀ field ∈ fields, Registry.IsWord field.1.toList ∧ field.2.Legible := by
  induction fields with
  | nil => exact ⟨nofun, fun _ => trivial⟩
  | cons field rest ih => rw [LegibleFields, ih, List.forall_mem_cons, and_assoc]

theorem legibleItems_iff (items : List Candidate) : LegibleItems items ↔ ∀ item ∈ items, item.Legible := by
  induction items with
  | nil => exact ⟨nofun, fun _ => trivial⟩
  | cons item rest ih => rw [LegibleItems, ih, List.forall_mem_cons]

/-- A key with a text behind it starts with a letter, a digit or an underscore. -/
theorem StartsApart.keyed {c : Char} {key : String} (word : Registry.IsWord key.toList) (text : String) : StartsApart c (key ++ ":" ++ text) := by
  refine ⟨key, ':', ⟨.of_isWord word, rfl, text.toList, by simp⟩, fun empty => absurd (empty ▸ rfl) word.1⟩

/-- Texts under keys. -/
theorem Discerns.keyed {P : Prop} {key key' text text' : String} (word : Registry.IsWord key.toList)
    (word' : Registry.IsWord key'.toList) (h : Discerns P text text') :
    Discerns (key = key' ∧ P) (key ++ ":" ++ text) (key' ++ ":" ++ text') :=
  joined rfl rfl (bare (.of_isWord word) (.of_isWord word')) h

/-- The names of an enumeration with their numbers. -/
theorem discerned_names {names names' : List (String × Int64)} (words : ∀ entry ∈ names, Registry.IsWord entry.1.toList)
    (words' : ∀ entry ∈ names', Registry.IsWord entry.1.toList) :
    Discerns (names = names') (braced (names.map fun entry => entry.1 ++ ":" ++ toString entry.2.toInt))
      (braced (names'.map fun entry => entry.1 ++ ":" ++ toString entry.2.toInt)) := by
  have each : ∀ entry ∈ names, ∀ entry' ∈ names', Discerns (id entry = id entry') (entry.1 ++ ":" ++ toString entry.2.toInt)
      (entry'.1 ++ ":" ++ toString entry'.2.toInt) := by
    intro entry hentry entry' hentry'
    refine (Discerns.keyed (words entry hentry) (words' entry' hentry') (.bare (.toString_int _) (.toString_int _))).imp ?_
    rintro ⟨key, number⟩
    exact Prod.ext key (Int64.toInt_inj.1 (Int.repr_inj.1 number))
  have list := Discerns.braced (fun entry hentry => .keyed (words entry hentry) _) (fun entry hentry => .keyed (words' entry hentry) _) each
  rwa [List.map_id, List.map_id] at list

mutual

/-- The induction is on the first candidate. The second one starts like it, which leaves the same constructor, or a name beside a number. -/
theorem Candidate.discerned : (a : Candidate) → a.Legible → (b : Candidate) → b.Legible →
    Discerns (a.byName = b.byName) a.text b.text
  | .name _, ha, _, hb => Candidate.discerned_quoted ha hb rfl
  | .fields layout, ha, b, hb => by
    refine Candidate.discerned_of_start ha hb fun same => ?_
    cases b with
    | fields layout' => exact (layout.discerned ha layout' hb).imp (congrArg Candidate.fields)
    | name n => cases layout <;> simp [Candidate.start] at same
    | schema schema => cases layout <;> cases schema <;> simp [Candidate.start] at same
  | .schema schema, ha, b, hb => by
    refine Candidate.discerned_of_start ha hb fun same => ?_
    cases b with
    | schema schema' => exact schema.discerned ha schema' hb (Schema.kindName_of_start same)
    | fields layout => cases layout <;> cases schema <;> simp [Candidate.start] at same
    | name n => exact Candidate.discerned_quoted ha hb same

theorem Layout.discerned : (layout : Layout) → layout.Legible → (layout' : Layout) → layout'.Legible →
    Discerns (layout.byName = layout'.byName) layout.text layout'.text
  | .named fields, h, layout', h' => by
    refine Candidate.discerned_of_start (a := .fields (.named fields)) (b := .fields layout') h h' fun same => ?_
    cases layout' with
    | named fields' =>
      have words := (legibleFields_iff fields).1 h
      have words' := (legibleFields_iff fields').1 h'
      -- The mutual recursion goes through the fields of the first layout only; those of the second one are any legible candidates.
      have inside := fields_discerned fields h
      simp only [Candidate.text, Layout.text, Layout.byName, fieldTexts_eq, fieldsByName_eq, Layout.named.injEq]
      refine Discerns.braced (fun field hfield => .keyed (words field hfield).1 _)
        (fun field hfield => .keyed (words' field hfield).1 _) fun field hfield field' hfield' => ?_
      exact (Discerns.keyed (words field hfield).1 (words' field' hfield').1
        (inside field hfield field'.2 (words' field' hfield').2)).imp fun h => Prod.ext h.1 h.2
    | positional items => simp [Candidate.start] at same
  | .positional items, h, layout', h' => by
    refine Candidate.discerned_of_start (a := .fields (.positional items)) (b := .fields layout') h h' fun same => ?_
    cases layout' with
    | positional items' =>
      have legible := (legibleItems_iff items).1 h
      have legible' := (legibleItems_iff items').1 h'
      have inside := items_discerned items h
      simp only [Candidate.text, Layout.text, Layout.byName, itemTexts_eq, itemsByName_eq, Layout.positional.injEq]
      exact Discerns.bracketed (fun item hitem => Candidate.startsApart (legible item hitem))
        (fun item hitem => Candidate.startsApart (legible' item hitem)) fun item hitem item' hitem' =>
          inside item hitem item' (legible' item' hitem')
    | named fields' => simp [Candidate.start] at same

/-- The schemas of fields are told apart from any others. -/
theorem fields_discerned : (fields : List (String × Candidate)) → LegibleFields fields → ∀ field ∈ fields, ∀ b : Candidate, b.Legible →
    Discerns (field.2.byName = b.byName) field.2.text b.text
  | [], _ => nofun
  | (key, candidate) :: rest, h => by
    intro field hfield b hb
    cases hfield with
    | head => exact candidate.discerned h.2.1 b hb
    | tail _ hfield => exact fields_discerned rest h.2.2 field hfield b hb

theorem items_discerned : (items : List Candidate) → LegibleItems items → ∀ item ∈ items, ∀ b : Candidate, b.Legible →
    Discerns (item.byName = b.byName) item.text b.text
  | [], _ => nofun
  | candidate :: rest, h => by
    intro item hitem b hb
    cases hitem with
    | head => exact candidate.discerned h.1 b hb
    | tail _ hitem => exact items_discerned rest h.2 item hitem b hb

/-- A count that is a candidate starts like none of the others. -/
theorem Count.discerned : (count : Count) → count.Legible → (count' : Count) → count'.Legible →
    Discerns (count.byName = count'.byName) count.text count'.text
  | .fixed n, _, .fixed n', _ =>
    (Discerns.bare (.toString_nat n) (.toString_nat n')).imp fun same => congrArg Count.fixed (Nat.repr_inj.1 same)
  | .fixed n, _, .auto, _ => (Discerns.bare (.toString_nat n) null_bare).imp fun same => absurd same (toString_nat_ne_null n)
  | .auto, _, .fixed n, _ => (Discerns.bare null_bare (.toString_nat n)).imp fun same => absurd same.symm (toString_nat_ne_null n)
  | .auto, _, .auto, _ => .refl rfl _
  | .fixed n, _, .prefixed number, h => number.discerned_digits h n
  | .prefixed number, h, .fixed n, _ => (number.discerned_digits h n).symm
  | .auto, _, .prefixed number, h => number.discerned_null h
  | .prefixed number, h, .auto, _ => (number.discerned_null h).symm
  | .prefixed number, h, .prefixed number', h' => (number.discerned h number' h').imp (congrArg Count.prefixed)

/-- Only a schema of the same kind is left to be told apart, and its arguments stand in the same places. -/
theorem Schema.discerned : (schema : Schema) → schema.Legible → (schema' : Schema) → schema'.Legible →
    schema.kindName = schema'.kindName → Discerns (schema.byName = schema'.byName) schema.text schema'.text
  | .number kind, h, schema', h', _ => Candidate.discerned_quoted (a := .schema (.number kind)) (b := .schema schema') h h' rfl
  | .array item count, h, schema', h', kinds => by
    cases schema' with
    | array item' count' =>
      refine (Discerns.called "array" (.two (item.discerned h.1 item' h'.1) (count.discerned h.2 count' h'.2))).imp ?_
      rintro ⟨items, counts⟩
      simp only [Schema.byName, items, counts]
    | _ => simp [Schema.kindName, Schema.Legible] at kinds h'
  | .string size, h, schema', h', kinds => by
    cases schema' with
    | string size' =>
      refine (Discerns.called "string" (.one (size.discerned h size' h'))).imp fun sizes => ?_
      simp only [Schema.byName, sizes]
    | _ => simp [Schema.kindName, Schema.Legible] at kinds h'
  | .cstring size, h, schema', h', kinds => by
    cases schema' with
    | cstring size' =>
      refine (Discerns.called "cstring" (.one (size.discerned h size' h'))).imp fun sizes => ?_
      simp only [Schema.byName, sizes]
    | _ => simp [Schema.kindName, Schema.Legible] at kinds h'
  | .object layout, h, schema', h', kinds => by
    cases schema' with
    | object layout' =>
      refine (Discerns.called "object" (.one (layout.discerned h layout' h'))).imp fun layouts => ?_
      simp only [Schema.byName, layouts]
    | _ => simp [Schema.kindName, Schema.Legible] at kinds h'
  | .union layout size, h, schema', h', kinds => by
    cases schema' with
    | union layout' size' =>
      refine (Discerns.called "union" (.two (layout.discerned h layout' h') (.bare (.toString_nat size) (.toString_nat size')))).imp ?_
      rintro ⟨layouts, sizes⟩
      simp only [Schema.byName, layouts, Nat.repr_inj.1 sizes]
    | _ => simp [Schema.kindName, Schema.Legible] at kinds h'
  | .enums names base, h, schema', h', kinds => by
    cases schema' with
    | enums names' base' =>
      refine (Discerns.called "enums" (.two (discerned_names h.1 h'.1) (base.discerned h.2 base' h'.2))).imp ?_
      rintro ⟨entries, bases⟩
      simp only [Schema.byName, entries, bases]
    | _ => simp [Schema.kindName, Schema.Legible] at kinds h'
  | .link field item, h, schema', h', kinds => by
    cases schema' with
    | link field' item' =>
      refine (Discerns.called "link" (.two (.quoted h.1 h'.1) (item.discerned h.2 item' h'.2))).imp ?_
      rintro ⟨fields, items⟩
      simp only [Schema.byName, fields, items]
    | _ => simp [Schema.kindName, Schema.Legible] at kinds h'
  | .exit, h, schema', h', kinds => by
    cases schema' with
    | exit => exact .refl rfl _
    | _ => simp [Schema.kindName, Schema.Legible] at kinds h'

end

/-- The canonical text identifies a candidate: two candidates have the same text exactly when they are the same tree, a number kind and
its name aside. -/
theorem Candidate.text_eq_iff {a b : Candidate} (ha : a.Legible) (hb : b.Legible) : a.text = b.text ↔ a.byName = b.byName := by
  constructor
  · exact (a.discerned ha b hb).of_eq
  · intro same
    rw [← a.text_byName, same, b.text_byName]

/-- A list with its count in front, and a body without fields behind each element. -/
def countedList (item number : Candidate) : Candidate :=
  .fields (.named [("rest_1", .schema (.array (.fields (.positional [item, .schema (.object (.named []))])) (.prefixed number)))])

theorem Candidate.text_eq_iff_countedList :
    (countedList (.number .int16) (.name "uint8")).Legible ∧ (countedList (.name "int16") (.number .uint8)).Legible ∧
      (countedList (.number .int16) (.name "uint8")).byName = (countedList (.name "int16") (.number .uint8)).byName := by
  have legible : (countedList (.number .int16) (.name "uint8")).Legible := by
    simp [countedList, Legible, Layout.Legible, LegibleFields, LegibleItems, Schema.Legible, Count.Legible, number, Unquoted,
      Registry.IsWord]
  have legible' : (countedList (.name "int16") (.number .uint8)).Legible := by
    simp [countedList, Legible, Layout.Legible, LegibleFields, LegibleItems, Schema.Legible, Count.Legible, number, Unquoted,
      Registry.IsWord]
  exact ⟨legible, legible', (text_eq_iff legible legible').1 (by rfl)⟩

end WireLayout
