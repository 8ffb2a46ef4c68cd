import WireLayout.Body
import WireLayout.Builder
import WireLayout.Enumeration
import WireLayout.Text
import WireLayout.Proofs.Contents

/-!
# Values but for the order of pairs

A record is a map: what it says does not depend on the order in which its pairs stand. Two values that differ in nothing but this order,
at any depth (`Value.Reordered`), show the same under every key, are equal to the same values, and are the same number, text or list. A
selector that is an application of a builder chooses the same schema for both, but that a computed field computes from the value that it
was chosen by (`Selector.select_reordered`).
-/

namespace WireLayout

mutual

/-- Two values differ in the order of the pairs of records, here or inside, and in nothing else. The keys of a record are distinct. -/
inductive Value.Reordered : Value → Value → Prop where
  | null : Value.Reordered .null .null
  | int (n : Int64) : Value.Reordered (.int n) (.int n)
  | float (x : Float) : Value.Reordered (.float x) (.float x)
  | text (s : String) : Value.Reordered (.text s) (.text s)
  | list {items items' : List Value} (inside : Value.ReorderedItems items items') : Value.Reordered (.list items) (.list items')
  /-- The contents are reordered where they stand, and then the pairs are. -/
  | record {fields fields' fields'' : List (String × Value)} (distinct : (Keyed.keys fields).Nodup)
      (inside : Value.ReorderedFields fields fields') (order : fields'.Perm fields'') : Value.Reordered (.record fields) (.record fields'')

/-- The same for the items of a list. -/
inductive Value.ReorderedItems : List Value → List Value → Prop where
  | nil : Value.ReorderedItems [] []
  | cons {v v' : Value} {rest rest' : List Value} (first : Value.Reordered v v') (others : Value.ReorderedItems rest rest') :
      Value.ReorderedItems (v :: rest) (v' :: rest')

/-- The same for pairs that stand in one order. -/
inductive Value.ReorderedFields : List (String × Value) → List (String × Value) → Prop where
  | nil : Value.ReorderedFields [] []
  | cons {v v' : Value} {rest rest' : List (String × Value)} (key : String) (first : Value.Reordered v v')
      (others : Value.ReorderedFields rest rest') : Value.ReorderedFields ((key, v) :: rest) ((key, v') :: rest')

end

namespace Value

variable {v v' : Value}

/-! ## What is found in them -/

namespace ReorderedItems

variable {items items' : List Value}

theorem length_eq (h : ReorderedItems items items') : items'.length = items.length := by
  induction items generalizing items' with
  | nil =>
    cases h
    rfl
  | cons v rest ih =>
    cases h with
    | cons first others => exact congrArg Nat.succ (ih others)

theorem getElem? (h : ReorderedItems items items') (i : Nat) : Option.Rel Reordered items[i]? items'[i]? := by
  induction items generalizing items' i with
  | nil =>
    cases h
    exact .none
  | cons v rest ih =>
    cases h with
    | cons first others =>
      cases i with
      | zero => exact .some first
      | succ i => simpa using ih others i

theorem head (h : ReorderedItems items items') : Reordered (items.head?.getD .null) (items'.head?.getD .null) := by
  cases h with
  | nil => exact .null
  | cons first others => exact first

theorem tail (h : ReorderedItems items items') : ReorderedItems items.tail items'.tail := by
  cases h with
  | nil => exact .nil
  | cons first others => exact others

end ReorderedItems

namespace ReorderedFields

variable {fields fields' : Keyed Value}

theorem keys_eq (h : ReorderedFields fields fields') : Keyed.keys fields' = Keyed.keys fields := by
  induction fields generalizing fields' with
  | nil =>
    cases h
    rfl
  | cons field rest ih =>
    cases h with
    | cons key first others => exact congrArg (key :: ·) (ih others)

theorem lookup (h : ReorderedFields fields fields') (key : String) : Option.Rel Reordered (fields.lookup key) (fields'.lookup key) := by
  induction fields generalizing fields' with
  | nil =>
    cases h
    exact .none
  | cons field rest ih =>
    cases h with
    | cons k first others =>
      rw [Keyed.lookup_cons, Keyed.lookup_cons]
      split
      · exact .some first
      · exact ih others

end ReorderedFields

/-- Distinct keys lead to the same contents in any order. -/
theorem lookup_reordered {fields fields' fields'' : Keyed Value} (distinct : (Keyed.keys fields).Nodup)
    (inside : ReorderedFields fields fields') (order : fields'.Perm fields'') (key : String) :
    Option.Rel Reordered (fields.lookup key) (fields''.lookup key) := by
  have distinct' : (Keyed.keys fields').Nodup := by rwa [inside.keys_eq]
  rw [← Keyed.lookup_perm order distinct' key]
  exact inside.lookup key

namespace Reordered

theorem get? (h : v.Reordered v') (key : String) : Option.Rel Reordered (v.get? key) (v'.get? key) := by
  cases h with
  | list inside =>
    simp only [Value.get?, Position.lookup]
    cases Position.ofKey? key with
    | none => exact .none
    | some i => exact inside.getElem? i
  | record distinct inside order => exact lookup_reordered distinct inside order key
  | _ => exact .none

/-- What is missing counts as null in both. -/
theorem getD_null (h : v.Reordered v') (key : String) : Reordered ((v.get? key).getD .null) ((v'.get? key).getD .null) := by
  have found := h.get? key
  generalize v.get? key = left at found
  generalize v'.get? key = right at found
  cases found with
  | none => exact .null
  | some found => exact found

end Reordered

/-! ## Equality does not tell them apart -/

mutual

theorem beq_reordered {v v' : Value} (h : v.Reordered v') : (a : Value) → beq a v = beq a v'
  | .null => by cases h <;> rfl
  | .int _ => by cases h <;> rfl
  | .float _ => by cases h <;> rfl
  | .text _ => by cases h <;> rfl
  | .list as => by
    cases h with
    | list inside => exact beqItems_reordered inside as
    | _ => rfl
  | .record as => by
    cases h with
    | @record fields fields' fields'' distinct inside order =>
      have size : fields''.length = fields.length := by
        rw [← order.length_eq, ← Keyed.length_keys, ← Keyed.length_keys, inside.keys_eq]
      have each := beqFields_reordered (lookup_reordered distinct inside order) as
      simp only [beq, size, each]
    | _ => rfl

theorem beqItems_reordered {items items' : List Value} (h : ReorderedItems items items') :
    (as : List Value) → beq.beqItems as items = beq.beqItems as items'
  | [] => by cases h <;> rfl
  | a :: as => by
    cases h with
    | nil => rfl
    | cons first others => simp only [beq.beqItems, beq_reordered first a, beqItems_reordered others as]

theorem beqFields_reordered {fields fields' : Keyed Value}
    (h : ∀ key, Option.Rel Reordered (fields.lookup key) (fields'.lookup key)) :
    (as : List (String × Value)) → beq.beqFields as fields = beq.beqFields as fields'
  | [] => rfl
  | (key, a) :: as => by
    have found := h key
    rw [beq.beqFields, beq.beqFields, beqFields_reordered h as]
    generalize fields.lookup key = left at found
    generalize fields'.lookup key = right at found
    cases found with
    | none => rfl
    | some found => simp only [beq_reordered found a]

end

theorem looselyEq_reordered (h : v.Reordered v') (a : Value) : a.looselyEq v = a.looselyEq v' := by
  have same : (a == v) = (a == v') := beq_reordered h a
  cases h with
  | list inside => cases a <;> exact same
  | record distinct inside order => cases a <;> exact same
  | _ => rfl

/-! ## Other views -/

namespace Reordered

theorem wordOf (h : v.Reordered v') (kind : Number) : kind.wordOf v' = kind.wordOf v := by
  cases h <;> cases kind <;> rfl

theorem numberOf (h : v.Reordered v') (names : List (String × Int64)) : Enumeration.numberOf names v' = Enumeration.numberOf names v := by
  cases h <;> rfl

theorem textOf (h : v.Reordered v') : Text.ofValue v' = Text.ofValue v := by
  cases h <;> rfl

theorem checkShape (h : v.Reordered v') (layout : Layout) : Body.checkShape layout v' = Body.checkShape layout v := by
  cases h <;> cases layout <;> rfl

end Reordered

/-- A list or a record. -/
def isCompound : Value → Bool
  | list _ | record _ => true
  | _ => false

/-- Without a list or a record there is nothing to reorder. -/
theorem Reordered.eq_or_compound (h : v.Reordered v') : v' = v ∨ v.isCompound = true ∧ v'.isCompound = true := by
  cases h with
  | list inside => exact .inr ⟨rfl, rfl⟩
  | record distinct inside order => exact .inr ⟨rfl, rfl⟩
  | _ => exact .inl rfl

end Value

/-! ## Faults but for what they quote -/

/-- The fault without the words that quote a value. -/
def Fault.unquoted : Fault → Fault
  | .unregisteredSchema _ => .unregisteredSchema ""
  | .invalidArgument builder _ => .invalidArgument builder ""
  | fault => fault

/-- The end of a run without the words that quote a value. -/
def Stop.unquoted : Stop → Stop
  | .fault cause => .fault cause.unquoted
  | .exhausted => .exhausted

/-! ## Selectors -/

/-- What a selector chooses for two values: the same schema, or the same computed field of either value, or nothing for the same reason. -/
inductive Selected (v v' : Value) : Except Fault Candidate → Except Fault Candidate → Prop where
  | same (c : Candidate) : Selected v v' (.ok c) (.ok c)
  | computed (operator : Operator) : Selected v v' (.ok (.computed operator v)) (.ok (.computed operator v'))
  | fault {fault fault' : Fault} (h : fault.unquoted = fault'.unquoted) : Selected v v' (.error fault) (.error fault')

/-- Both arguments are refused, and for the same reason. -/
inductive Refused {α : Type} : Except Fault α → Except Fault α → Prop where
  | fault {fault fault' : Fault} (h : fault.unquoted = fault'.unquoted) : Refused (.error fault) (.error fault')

namespace Selected

variable {v v' : Value} {α : Type}

theorem refl (result : Except Fault Candidate) : Selected v v' result result := by
  cases result with
  | ok c => exact .same c
  | error fault => exact .fault rfl

/-- Arguments in front are read in the same way. -/
theorem behind (first : Except Fault α) {next next' : α → Except Fault Candidate} (h : ∀ a, Selected v v' (next a) (next' a)) :
    Selected v v' (first >>= next) (first >>= next') := by
  cases first with
  | ok a => exact h a
  | error fault => exact .fault rfl

theorem refused {first first' : Except Fault α} {next next' : α → Except Fault Candidate} (h : Refused first first') :
    Selected v v' (first >>= next) (first' >>= next') := by
  cases h with
  | fault h => exact .fault h

end Selected

namespace Argument

variable {v v' : Value} {builder : Builder}

theorem candidate_compound (h : v.isCompound = true) (h' : v'.isCompound = true) :
    Refused ((Argument.value v).candidate builder) ((Argument.value v').candidate builder) := by
  cases v <;> cases h <;> cases v' <;> cases h' <;> exact .fault rfl

theorem count_compound (h : v.isCompound = true) (h' : v'.isCompound = true) :
    Refused ((Argument.value v).count builder) ((Argument.value v').count builder) := by
  cases v <;> cases h <;> cases v' <;> cases h' <;> exact .fault rfl

theorem size_compound (h : v.isCompound = true) (h' : v'.isCompound = true) :
    Refused ((Argument.value v).size builder) ((Argument.value v').size builder) := by
  cases v <;> cases h <;> cases v' <;> cases h' <;> exact .fault rfl

end Argument

namespace Builder

variable {v v' : Value}

theorem casesOf_reordered (h : v.Reordered v') (pairs : List (Value × Candidate)) : Selected v v' (casesOf pairs v) (casesOf pairs v') := by
  have matching : (fun pair : Value × Candidate => pair.1.looselyEq v') = fun pair => pair.1.looselyEq v :=
    funext fun pair => (Value.looselyEq_reordered h pair.1).symm
  rw [casesOf, casesOf, matching]
  cases pairs.find? fun pair => pair.1.looselyEq v with
  | some pair => exact .same pair.2
  | none => exact .fault rfl

/-- A builder whose last argument is one value or the other. Most builders refuse lists and records there: only the value that cases are
matched with and that of a computed field can be one. -/
theorem build_reordered (h : v.Reordered v') (builder : Builder) (arguments : List Argument)
    (complete : arguments.length + 1 = builder.arity) :
    Selected v v' (builder.build (arguments ++ [.value v])) (builder.build (arguments ++ [.value v'])) := by
  rcases h.eq_or_compound with rfl | ⟨compound, compound'⟩
  · exact .refl _
  · match builder, arguments, complete with
    | .bytes, [], _ | .string, [], _ | .cstring, [], _ => exact .refused (Argument.count_compound compound compound')
    | .shortArray, [], _ | .smallArray, [], _ | .longArray, [], _ => exact .refused (Argument.candidate_compound compound compound')
    | .object, [], _ => exact .fault rfl
    | .array, [_], _ => exact .behind _ fun _ => .refused (Argument.count_compound compound compound')
    | .union, [_], _ => exact .behind _ fun _ => .refused (Argument.size_compound compound compound')
    | .enums, [_], _ => exact .refused (Argument.candidate_compound compound compound')
    | .depend, [_], _ => exact .behind _ fun _ => .fault rfl
    | .dependArray, [_], _ | .link, [_], _ => exact .behind _ fun _ => .refused (Argument.candidate_compound compound compound')
    | .cases, [_], _ => exact .behind _ fun pairs => casesOf_reordered h pairs
    | .computed, [_], _ => exact .behind _ fun operator => .computed operator
    | .parse, [_, _, _], _ =>
      exact .behind _ fun _ => .behind _ fun _ => .behind _ fun _ => .refused (Argument.count_compound compound compound')

end Builder

/-- An application of a builder chooses the same for two values but for the order of pairs. -/
theorem Selector.select_reordered {v v' : Value} (h : v.Reordered v') (builder : Builder) (arguments : List Argument) :
    Selected v v' ((application builder arguments).select v) ((application builder arguments).select v') := by
  have length : ∀ w, (arguments ++ [Argument.value w]).length = arguments.length + 1 := fun w => by simp
  simp only [select, Partial.apply, length]
  by_cases more : builder.arity < arguments.length + 1
  · rw [if_pos more, if_pos more]
    exact .fault rfl
  · rw [if_neg more, if_neg more]
    by_cases fewer : arguments.length + 1 < builder.arity
    · rw [if_pos fewer, if_pos fewer]
      exact .fault rfl
    · rw [if_neg fewer, if_neg fewer]
      have chosen := Builder.build_reordered h builder arguments (by omega)
      generalize builder.build (arguments ++ [.value v]) = left at chosen
      generalize builder.build (arguments ++ [.value v']) = right at chosen
      cases chosen with
      | same c => exact .same c
      | computed operator => exact .computed operator
      | fault h => exact .fault h

end WireLayout
