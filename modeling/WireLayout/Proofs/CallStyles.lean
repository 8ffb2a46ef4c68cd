import WireLayout.Builder

/-!
# Arguments in any number of steps

Arguments may be given all at once, group after group, or collected first and applied then. What is built depends on the arguments
alone (`Builder.applyInTurn_eq_call`). The induction is on the groups: as long as not more than the arity have come, two groups
one after the other are the two groups in one (`apply_andThen`), and a group that exceeds the arity fails wherever it comes
(`apply_andThen_overflow`). Behind a complete schema only empty groups pass.
-/

namespace WireLayout

/-- A complete schema takes no further arguments. -/
theorem Applied.andThen_complete (candidate : Candidate) {more : List Argument} (h : more ≠ []) :
    (complete candidate).andThen more = .error (.invalidArgument "together" (candidate.text ++ " is complete")) := by
  cases more with
  | nil => exact absurd rfl h
  | cons a rest => rfl

namespace Partial

variable {p : Partial} {first group : List Argument}

theorem apply_of_lt (h : (p.arguments ++ first).length < p.builder.arity) :
    p.apply first = .ok (.incomplete { p with arguments := p.arguments ++ first }) := by
  unfold apply
  dsimp only
  rw [if_neg (Nat.lt_asymm h), if_pos h]

theorem apply_of_eq (h : (p.arguments ++ first).length = p.builder.arity) :
    p.apply first = (p.builder.build (p.arguments ++ first)).map .complete := by
  unfold apply
  dsimp only
  rw [h, if_neg (Nat.lt_irrefl _), if_neg (Nat.lt_irrefl _)]
  cases p.builder.build (p.arguments ++ first) <;> rfl

theorem apply_of_gt (h : p.builder.arity < (p.arguments ++ first).length) :
    p.apply first = .error (p.builder.arityFault (p.arguments ++ first).length) := by
  unfold apply
  dsimp only
  rw [if_pos h]

/-- Applying looks at the collected and the new arguments together. -/
theorem apply_append (p : Partial) (first group : List Argument) :
    apply { p with arguments := p.arguments ++ first } group = p.apply (first ++ group) := by
  unfold apply
  dsimp only
  rw [List.append_assoc]

/-- Arguments that are collected one by one stand behind those collected before. -/
theorem foldl_collect (p : Partial) (collected : List Argument) :
    collected.foldl collect p = { p with arguments := p.arguments ++ collected } := by
  induction collected generalizing p with
  | nil => rw [List.foldl_nil, List.append_nil]
  | cons a rest ih => rw [List.foldl_cons, ih, collect, List.append_assoc, List.singleton_append]

/-- Applies groups of arguments one after another. -/
def applyInTurn (p : Partial) (first : List Argument) (others : List (List Argument)) : Except Fault Applied := do
  others.foldlM Applied.andThen (← p.apply first)

/-! ## One group behind another -/

/-- Two groups that do not exceed the arity do what they do as one. -/
theorem apply_andThen (h : (p.arguments ++ (first ++ group)).length ≤ p.builder.arity) :
    (p.apply first >>= fun reached => reached.andThen group) = p.apply (first ++ group) := by
  rw [← List.append_assoc, List.length_append] at h
  rcases Nat.lt_or_ge (p.arguments ++ first).length p.builder.arity with missing | full
  · rw [apply_of_lt missing]
    exact apply_append p first group
  · -- The first group leaves no argument missing, so the second one is empty.
    have hempty : group = [] := List.length_eq_zero_iff.mp (by omega)
    rw [hempty, List.append_nil, apply_of_eq (by omega)]
    cases p.builder.build (p.arguments ++ first) <;> rfl

/-- A group that exceeds the arity fails, whether the schema is complete in front of it or not. -/
theorem apply_andThen_overflow (h : p.builder.arity < (p.arguments ++ (first ++ group)).length) :
    ∃ fault, (p.apply first >>= fun reached => reached.andThen group) = .error fault := by
  rcases Nat.lt_trichotomy (p.arguments ++ first).length p.builder.arity with missing | full | more
  · rw [apply_of_lt missing]
    exact ⟨_, (apply_append p first group).trans (apply_of_gt h)⟩
  · rw [apply_of_eq full]
    cases p.builder.build (p.arguments ++ first) with
    | error fault => exact ⟨fault, rfl⟩
    | ok candidate =>
      have hmore : group ≠ [] := by
        rintro rfl
        rw [List.append_nil, full] at h
        exact Nat.lt_irrefl _ h
      exact ⟨_, Applied.andThen_complete candidate hmore⟩
  · rw [apply_of_gt more]
    exact ⟨_, rfl⟩

/-! ## Any number of groups -/

theorem applyInTurn_cons (p : Partial) (first group : List Argument) (others : List (List Argument)) :
    p.applyInTurn first (group :: others) =
      (p.apply first >>= fun reached => reached.andThen group) >>= fun reached => others.foldlM Applied.andThen reached := by
  unfold applyInTurn
  rw [bind_assoc]
  simp only [List.foldlM_cons]

/-- Groups that do not exceed the arity do what they do as one, the fault of a failed build included. -/
theorem applyInTurn_eq_apply (others : List (List Argument))
    (h : (p.arguments ++ (first ++ others.flatten)).length ≤ p.builder.arity) :
    p.applyInTurn first others = p.apply (first ++ others.flatten) := by
  induction others generalizing first with
  | nil =>
    rw [List.flatten_nil, List.append_nil]
    exact bind_pure _
  | cons group others ih =>
    rw [List.flatten_cons, ← List.append_assoc first] at h ⊢
    have hgroup : (p.arguments ++ (first ++ group)).length ≤ p.builder.arity := by
      rw [← List.append_assoc p.arguments, List.length_append] at h
      omega
    rw [applyInTurn_cons, apply_andThen hgroup]
    exact ih h

/-- Groups that exceed the arity together fail. -/
theorem applyInTurn_overflow (others : List (List Argument))
    (h : p.builder.arity < (p.arguments ++ (first ++ others.flatten)).length) :
    ∃ fault, p.applyInTurn first others = .error fault := by
  induction others generalizing first with
  | nil =>
    rw [List.flatten_nil, List.append_nil] at h
    exact ⟨_, (bind_pure _).trans (apply_of_gt h)⟩
  | cons group others ih =>
    rw [List.flatten_cons, ← List.append_assoc first] at h
    rw [applyInTurn_cons]
    rcases Nat.lt_or_ge p.builder.arity (p.arguments ++ (first ++ group)).length with exceeds | fits
    · obtain ⟨fault, hfault⟩ := apply_andThen_overflow exceeds
      exact ⟨fault, by rw [hfault]; rfl⟩
    · rw [apply_andThen fits]
      exact ih h

end Partial

namespace Builder

/-- However the arguments of a builder are split into some that are collected and groups that are applied one after another, they
come to what they come to in one call: up to the arity to the very same, a failed build included; with too few of them to what is
collected, and to no schema; with too many to a fault. So the same schema comes out either way, if any does. -/
theorem applyInTurn_eq_call (builder : Builder) {arguments collected first : List Argument} {others : List (List Argument)}
    (split : collected ++ first ++ others.flatten = arguments) :
    (∀ candidate, ((collected.foldl Partial.collect builder.start).applyInTurn first others >>= Applied.candidate) = .ok candidate ↔
        (builder.call arguments >>= Applied.candidate) = .ok candidate) ∧
      (arguments.length ≤ builder.arity →
        (collected.foldl Partial.collect builder.start).applyInTurn first others = builder.call arguments) ∧
      (arguments.length < builder.arity →
        ∃ p, builder.call arguments = .ok (.incomplete p) ∧ p.builder = builder ∧ p.arguments = arguments ∧
          arguments.length + p.remaining = builder.arity ∧
          (builder.call arguments >>= Applied.candidate) =
            .error (.invalidArgument builder.name (toString p.remaining ++ " more arguments required"))) ∧
      (builder.arity < arguments.length →
        (∃ fault, (collected.foldl Partial.collect builder.start).applyInTurn first others = .error fault) ∧
          builder.call arguments = .error (builder.arityFault arguments.length)) := by
  have hcollected : collected.foldl Partial.collect builder.start = ⟨builder, collected⟩ := Partial.foldl_collect _ collected
  have hall : collected ++ (first ++ others.flatten) = arguments := (List.append_assoc _ _ _).symm.trans split
  have hlength : (collected ++ (first ++ others.flatten)).length = arguments.length := congrArg List.length hall
  have hcall : builder.call arguments = Partial.apply ⟨builder, collected⟩ (first ++ others.flatten) := by
    rw [← hall]
    exact (Partial.apply_append builder.start collected _).symm
  have hupTo : arguments.length ≤ builder.arity →
      Partial.applyInTurn ⟨builder, collected⟩ first others = builder.call arguments := by
    intro hle
    rw [hcall]
    exact Partial.applyInTurn_eq_apply others (Nat.le_trans (Nat.le_of_eq hlength) hle)
  have hover : builder.arity < arguments.length →
      (∃ fault, Partial.applyInTurn ⟨builder, collected⟩ first others = .error fault) ∧
        builder.call arguments = .error (builder.arityFault arguments.length) := by
    intro hlt
    exact ⟨Partial.applyInTurn_overflow others (Nat.lt_of_lt_of_eq hlt hlength.symm), Partial.apply_of_gt hlt⟩
  rw [hcollected]
  refine ⟨?_, hupTo, ?_, hover⟩
  · intro candidate
    rcases Nat.lt_or_ge builder.arity arguments.length with more | upTo
    · obtain ⟨⟨fault, hturn⟩, hone⟩ := hover more
      rw [hturn, hone]
      exact ⟨nofun, nofun⟩
    · rw [hupTo upTo]
  · intro missing
    have hincomplete : builder.call arguments = .ok (.incomplete ⟨builder, arguments⟩) := Partial.apply_of_lt missing
    refine ⟨⟨builder, arguments⟩, hincomplete, rfl, rfl, Nat.add_sub_of_le (Nat.le_of_lt missing), ?_⟩
    rw [hincomplete]
    rfl

/-- The item comes behind an empty group, and the count behind another one. -/
theorem applyInTurn_array :
    [] ++ [] ++ [[Argument.value (.text "int16")], [], [Argument.value (.int 2)]].flatten =
        [.value (.text "int16"), .value (.int 2)] ∧
      Partial.applyInTurn array.start [] [[.value (.text "int16")], [], [.value (.int 2)]] =
        .ok (.complete (.array (.name "int16") (.fixed 2))) :=
  ⟨rfl, ((@applyInTurn_eq_call array _ [] [] [[.value (.text "int16")], [], [.value (.int 2)]] rfl).2).1 (Nat.le_refl 2)⟩

end Builder

end WireLayout
