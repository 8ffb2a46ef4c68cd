import WireLayout.Registry
import Mathlib.Data.Set.Card
import Mathlib.Logic.Relation

/-!
# Rewriting by any patterns

Patterns may be any functions, and may rewrite in circles. What keeps resolution from doing so is the list of texts that it has
seen. A candidate is replaced by the first pattern that applies to it, the one that has just been used passed over (`Fires`), and a
run of such replacements is determined by where it starts (`InTurn`). It goes on only to texts that it has not seen, all of which can be
reached by rewriting; so where only finitely many texts can be reached, it ends after that many replacements at most (`exists_run`). The
induction is on how many of these texts are left. That the scan starts over after every replacement plays no part in it.

The limit of a registry is no part of this either: with any limit that the run stays below, resolution ends as the run does, and with
any other it is given up (`resolve_ends`).
-/

namespace WireLayout

namespace Registry

/-- One of the patterns makes `b` of `a`. -/
def Rewrites (r : Registry) (a b : Candidate) : Prop := ∃ pattern ∈ r.patterns, pattern r.table a = some b

/-- The texts of what patterns can make of a candidate, in any number of steps. Its own text is one of them. -/
def reachableTexts (r : Registry) (c : Candidate) : Set String :=
  {text | ∃ d, Relation.ReflTransGen r.Rewrites c d ∧ d.text = text}

/-- None of the first `n` patterns applies to `c`, but possibly the one at `last`. -/
def PassedOver (r : Registry) (last : Option Nat) (c : Candidate) (n : Nat) : Prop :=
  ∀ place < n, last ≠ some place → ∀ pattern, r.patterns[place]? = some pattern → pattern r.table c = none

/-- The pattern at `place` is the first one that applies to `c`, the one at `last` aside, and makes `next` of it. -/
structure Fires (r : Registry) (last : Option Nat) (c : Candidate) (place : Nat) (next : Candidate) : Prop where
  other : last ≠ some place
  applies : ∃ pattern, r.patterns[place]? = some pattern ∧ pattern r.table c = some next
  first : r.PassedOver last c place

/-- Replacements in turn: each is given by the place of the pattern that fires and by what it makes. They lead from `c`, where the
pattern at `last` has just been used, to `d`, where the one at `last'` has just been used. -/
inductive InTurn (r : Registry) : Option Nat → Candidate → List (Nat × Candidate) → Option Nat → Candidate → Prop where
  | here (last : Option Nat) (c : Candidate) : InTurn r last c [] last c
  | onward {last last' : Option Nat} {c next d : Candidate} {place : Nat} {passed : List (Nat × Candidate)} :
      r.Fires last c place next → InTurn r (some place) next passed last' d → InTurn r last c ((place, next) :: passed) last' d

/-- How a resolution ends at `c`, when it was asked for `asked` and passed through the texts in `seen`: with a last replacement, or
without one. -/
inductive Concludes (r : Registry) (asked : String) (seen : List String) (last : Option Nat) (c : Candidate) :
    Option (Nat × Candidate) → Except Stop Schema → Prop where
  | schema {place : Nat} {schema : Schema} : r.Fires last c place (.schema schema) →
      Concludes r asked seen last c (some (place, .schema schema)) (.ok schema)
  /-- What was made of it has come around again. -/
  | around {place : Nat} {next : Candidate} : r.Fires last c place next → (∀ schema, next ≠ .schema schema) → next.text ∈ seen →
      Concludes r asked seen last c (some (place, next)) (.error (.fault (.unregisteredSchema asked)))
  /-- No pattern is left that applies. -/
  | stuck : r.PassedOver last c r.patterns.length →
      Concludes r asked seen last c none (.error (.fault (.unregisteredSchema asked)))

variable {r : Registry} {last last' : Option Nat} {c d next : Candidate} {place : Nat}

/-! ## The scan for a pattern -/

/-- The scan finds the pattern that fires, or there is none. It is the scan of the patterns from `start` on. -/
theorem replace?_cases (start : Nat) (rest : List Pattern) (here : r.patterns.drop start = rest) (passed : r.PassedOver last c start) :
    (∃ place next, replace? r.table last c start rest = some (place, next) ∧ r.Fires last c place next) ∨
      (replace? r.table last c start rest = none ∧ r.PassedOver last c r.patterns.length) := by
  induction rest generalizing start with
  | nil =>
    have length : r.patterns.length ≤ start := List.drop_eq_nil_iff.mp here
    exact .inr ⟨rfl, fun place hplace => passed place (Nat.lt_of_lt_of_le hplace length)⟩
  | cons pattern rest ih =>
    have found : r.patterns[start]? = some pattern := by
      rw [← List.head?_drop, here, List.head?_cons]
    have behind : r.patterns.drop (start + 1) = rest := by
      rw [← List.tail_drop, here, List.tail_cons]
    -- Whether this pattern is passed over or does not apply, the next ones are left.
    have onward (none : last ≠ some start → pattern r.table c = none) : r.PassedOver last c (start + 1) := by
      intro place hplace other pattern' found'
      rcases Nat.lt_succ_iff_lt_or_eq.mp hplace with before | rfl
      · exact passed place before other pattern' found'
      · obtain rfl : pattern = pattern' := Option.some.inj (found.symm.trans found')
        exact none other
    by_cases used : last = some start
    · rw [replace?, if_pos used]
      exact ih (start + 1) behind (onward fun other => absurd used other)
    · cases made : pattern r.table c with
      | none =>
        simp only [replace?, if_neg used, made]
        exact ih (start + 1) behind (onward fun _ => made)
      | some next =>
        simp only [replace?, if_neg used, made]
        exact .inl ⟨start, next, rfl, used, ⟨pattern, found, made⟩, passed⟩

theorem scan_cases (r : Registry) (last : Option Nat) (c : Candidate) :
    (∃ place next, replace? r.table last c 0 r.patterns = some (place, next) ∧ r.Fires last c place next) ∨
      (replace? r.table last c 0 r.patterns = none ∧ r.PassedOver last c r.patterns.length) :=
  replace?_cases 0 r.patterns rfl fun _ before => absurd before (Nat.not_lt_zero _)

theorem Fires.rewrites (fires : r.Fires last c place next) : r.Rewrites c next := by
  obtain ⟨pattern, found, made⟩ := fires.applies
  exact ⟨pattern, List.mem_of_getElem? found, made⟩

/-! ## Runs of replacements -/

theorem InTurn.reaches {passed : List (Nat × Candidate)} (run : r.InTurn last c passed last' d) :
    ∀ step ∈ passed, Relation.ReflTransGen r.Rewrites c step.2 := by
  induction run with
  | here last c => nofun
  | onward fires _ ih =>
    intro step hstep
    rcases List.mem_cons.mp hstep with rfl | later
    · exact .single fires.rewrites
    · exact (ih step later).head fires.rewrites

theorem InTurn.texts_reachable {passed : List (Nat × Candidate)} (run : r.InTurn last c passed last' d) :
    ∀ text ∈ (c :: passed.map Prod.snd).map Candidate.text, text ∈ r.reachableTexts c := by
  intro text htext
  obtain ⟨e, he, rfl⟩ := List.mem_map.mp htext
  rcases List.mem_cons.mp he with rfl | he
  · exact ⟨e, .refl, rfl⟩
  · obtain ⟨step, hstep, rfl⟩ := List.mem_map.mp he
    exact ⟨step.2, run.reaches step hstep, rfl⟩

/-- No pattern is used twice in a row, the one of the last replacement included. -/
theorem InTurn.alternates {passed : List (Nat × Candidate)} (run : r.InTurn last c passed last' d) {asked : String} {seen : List String}
    {final : Option (Nat × Candidate)} {outcome : Except Stop Schema} (ends : r.Concludes asked seen last' d final outcome) :
    ((passed ++ final.toList).map Prod.fst).IsChain (· ≠ ·) ∧
      ∀ place ∈ ((passed ++ final.toList).map Prod.fst).head?, last ≠ some place := by
  induction run with
  | here last c =>
    cases ends with
    | schema fires | around fires _ _ => exact ⟨.singleton _, fun _ hplace => by cases hplace; exact fires.other⟩
    | stuck _ => exact ⟨.nil, nofun⟩
  | onward fires _ ih =>
    obtain ⟨chain, head⟩ := ih ends
    refine ⟨chain.cons fun place hplace => ?_, fun place hplace => ?_⟩
    · exact fun same => head place hplace (congrArg some same)
    · cases hplace
      exact fires.other

/-- Only what was seen counts, not in which order. -/
theorem Concludes.congr {asked : String} {seen seen' : List String} {final : Option (Nat × Candidate)} {outcome : Except Stop Schema}
    (same : ∀ text, text ∈ seen → text ∈ seen') (ends : r.Concludes asked seen last c final outcome) :
    r.Concludes asked seen' last c final outcome := by
  cases ends with
  | schema fires => exact .schema fires
  | around fires raw again => exact .around fires raw (same _ again)
  | stuck passed => exact .stuck passed

/-! ## Resolution -/

/-- A replacement that is no schema is gone on with, unless its text was seen. -/
theorem resolveFrom_raw {seen : List String} (scan : replace? r.table last c 0 r.patterns = some (place, next))
    (raw : ∀ schema, next ≠ .schema schema) (asked : String) (limit : Nat) :
    r.resolveFrom asked (limit + 1) c seen last =
      if next.text ∈ seen then .error (.fault (.unregisteredSchema asked))
      else r.resolveFrom asked limit next (next.text :: seen) (some place) := by
  rw [resolveFrom, scan]
  cases next with
  | schema schema => exact absurd rfl (raw schema)
  | name _ | fields _ => rfl

/-- What one round of resolution does: it ends, or goes on with a text that was not seen. -/
theorem resolveFrom_cases (r : Registry) (asked : String) (seen : List String) (last : Option Nat) (c : Candidate) :
    (∃ final outcome, r.Concludes asked seen last c final outcome ∧ ∀ limit, r.resolveFrom asked (limit + 1) c seen last = outcome) ∨
      ∃ place next, r.Fires last c place next ∧ next.text ∉ seen ∧
        ∀ limit, r.resolveFrom asked (limit + 1) c seen last = r.resolveFrom asked limit next (next.text :: seen) (some place) := by
  rcases r.scan_cases last c with ⟨place, next, scan, fires⟩ | ⟨scan, passed⟩
  · by_cases raw : ∀ schema, next ≠ .schema schema
    · by_cases again : next.text ∈ seen
      · exact .inl ⟨_, _, .around fires raw again, fun limit => by rw [resolveFrom_raw scan raw, if_pos again]⟩
      · exact .inr ⟨place, next, fires, again, fun limit => by rw [resolveFrom_raw scan raw, if_neg again]⟩
    · obtain ⟨schema, rfl⟩ : ∃ schema, next = .schema schema := by simpa using raw
      exact .inl ⟨_, _, .schema fires, fun limit => by rw [resolveFrom, scan]⟩
  · exact .inl ⟨_, _, .stuck passed, fun limit => by rw [resolveFrom, scan]⟩

/-- The limit of the registry is not what replacements go by. -/
theorem resolveFrom_limits (r : Registry) (limits : Limits) (asked : String) (limit : Nat) (c : Candidate) (seen : List String)
    (last : Option Nat) : resolveFrom { r with limits } asked limit c seen last = r.resolveFrom asked limit c seen last := by
  induction limit generalizing c seen last with
  | zero => rfl
  | succ limit ih =>
    simp only [resolveFrom, ih]

theorem resolve_of_raw (raw : ∀ schema, c ≠ .schema schema) :
    r.resolve c = r.resolveFrom c.identifier r.limits.replacements c [c.text] none := by
  cases c with
  | schema schema => exact absurd rfl (raw schema)
  | name _ | fields _ => rfl

/-- Texts that are all different are no more than the finitely many among which they are. -/
theorem length_le_ncard {texts : List String} {all : Set String} (finite : all.Finite) (nodup : texts.Nodup)
    (among : ∀ text ∈ texts, text ∈ all) : texts.length ≤ all.ncard := by
  rw [← List.toFinset_card_of_nodup nodup, ← Set.ncard_coe_finset]
  exact Set.ncard_le_ncard (fun text htext => among text (by simpa using htext)) finite

/-- From where resolution got to it comes to an end, after a run of replacements through texts that were not seen. With a limit that
the run reaches it is given up. `left` texts are left at most. -/
theorem exists_run {all : Set String} (finite : all.Finite) (asked : String) (left : Nat) (last : Option Nat) (c : Candidate)
    (seen : List String) (within : ∀ d, Relation.ReflTransGen r.Rewrites c d → d.text ∈ all) (nodup : seen.Nodup)
    (among : ∀ text ∈ seen, text ∈ all) (enough : all.ncard < seen.length + left) :
    ∃ passed last' d final outcome, r.InTurn last c passed last' d ∧
      ((passed.map fun step => step.2.text).reverse ++ seen).Nodup ∧
      r.Concludes asked ((passed.map fun step => step.2.text).reverse ++ seen) last' d final outcome ∧
      ∀ limit, r.resolveFrom asked limit c seen last = if passed.length < limit then outcome else .error .exhausted := by
  induction left generalizing c last seen with
  | zero =>
    have := length_le_ncard finite nodup among
    omega
  | succ left ih =>
    rcases r.resolveFrom_cases asked seen last c with ⟨final, outcome, ends, resolved⟩ | ⟨place, next, fires, unseen, resolved⟩
    · refine ⟨[], last, c, final, outcome, .here last c, nodup, ends, fun limit => ?_⟩
      cases limit with
      | zero => rfl
      | succ limit => exact (resolved limit).trans (if_pos (Nat.succ_pos _)).symm
    · have reached : next.text ∈ all := within next (.single fires.rewrites)
      obtain ⟨passed, last', d, final, outcome, run, nodup', ends, resolved'⟩ :=
        ih (some place) next (next.text :: seen) (fun d hd => within d (hd.head fires.rewrites))
          (List.nodup_cons.mpr ⟨unseen, nodup⟩) (List.forall_mem_cons.mpr ⟨reached, among⟩) (by rw [List.length_cons]; omega)
      have texts : (((place, next) :: passed).map fun step => step.2.text).reverse ++ seen =
          (passed.map fun step => step.2.text).reverse ++ next.text :: seen := by simp
      refine ⟨(place, next) :: passed, last', d, final, outcome, .onward fires run, by rwa [texts], by rwa [texts], fun limit => ?_⟩
      cases limit with
      | zero => rfl
      | succ limit =>
        rw [resolved limit, resolved' limit, List.length_cons]
        simp only [Nat.succ_lt_succ_iff]

/-- Resolution under any patterns, of a candidate from which only finitely many texts can be reached by rewriting. A schema stands for
itself. From any other candidate `c` there is a run of replacements, each by the first pattern that applies but for the one that has just
been used, in which no pattern is used twice in a row; it passes through candidates with different texts only, and there are no more
replacements than texts that can be reached. It ends with a schema that a pattern made of the last of these candidates, or with
`unregisteredSchema`, which names what was asked for. That is what resolution comes to if the registry admits as many replacements as
there are texts; in general, if it admits more than were passed through. -/
theorem resolve_ends (finite : (r.reachableTexts c).Finite) :
    (∀ schema, c = .schema schema → ∀ limits, resolve { r with limits } c = .ok schema) ∧
    ((∀ schema, c ≠ .schema schema) → ∃ passed last d final outcome,
      r.InTurn none c passed last d ∧
      r.Concludes c.identifier ((c :: passed.map Prod.snd).map Candidate.text) last d final outcome ∧
      ((passed ++ final.toList).map Prod.fst).IsChain (· ≠ ·) ∧
      ((c :: passed.map Prod.snd).map Candidate.text).Nodup ∧
      (passed ++ final.toList).length ≤ (r.reachableTexts c).ncard ∧
      (∀ limits : Limits, (r.reachableTexts c).ncard ≤ limits.replacements → resolve { r with limits } c = outcome) ∧
      ∀ limits : Limits,
        resolve { r with limits } c = if passed.length < limits.replacements then outcome else .error .exhausted) := by
  refine ⟨?_, fun raw => ?_⟩
  · rintro schema rfl limits
    rfl
  · obtain ⟨passed, last, d, final, outcome, run, nodup, ends, resolved⟩ :=
      exists_run finite c.identifier ((r.reachableTexts c).ncard + 1) none c [c.text]
        (fun d reached => ⟨d, reached, rfl⟩) (List.nodup_singleton _)
        (fun text htext => ⟨c, .refl, (List.mem_singleton.mp htext).symm⟩) (by rw [List.length_singleton]; omega)
    have texts : ((passed.map fun step => step.2.text).reverse ++ [c.text]).Perm ((c :: passed.map Prod.snd).map Candidate.text) := by
      rw [List.map_cons, List.map_map]
      exact (List.perm_append_comm.trans ((List.reverse_perm _).cons _))
    have nodup' := texts.nodup_iff.mp nodup
    have ends' := ends.congr fun text => texts.mem_iff.mp
    have fewer : passed.length < (r.reachableTexts c).ncard := by
      have := length_le_ncard finite nodup' run.texts_reachable
      simpa using this
    have final_le : final.toList.length ≤ 1 := by cases final <;> simp
    have resolved' : ∀ limits : Limits,
        resolve { r with limits } c = if passed.length < limits.replacements then outcome else .error .exhausted := by
      intro limits
      rw [resolve_of_raw raw, resolveFrom_limits, resolved]
    refine ⟨passed, last, d, final, outcome, run, ends', (run.alternates ends').1, nodup', ?_, fun limits ample => ?_, resolved'⟩
    · rw [List.length_append]
      omega
    · rw [resolved', if_pos (Nat.lt_of_lt_of_le fewer ample)]

/-- A pattern that makes one name of another. -/
def renames (a b : String) : Pattern := fun _ c =>
  match c with
  | .name n => if n = a then some (.name b) else none
  | _ => none

theorem eq_of_renames {a b : String} {table : Table} (made : renames a b table c = some d) : d = .name b := by
  cases c with
  | name n =>
    simp only [renames] at made
    split at made
    · exact (Option.some.inj made).symm
    · cases made
  | fields _ | schema _ => cases made

/-- Three names that are rewritten in a circle. -/
def circle : Registry := { empty with patterns := [renames "a" "b", renames "b" "c", renames "c" "a"] }

theorem circle_closed (reached : Relation.ReflTransGen circle.Rewrites (.name "a") d) :
    d = .name "a" ∨ d = .name "b" ∨ d = .name "c" := by
  cases reached with
  | refl => exact .inl rfl
  | tail _ step =>
    obtain ⟨pattern, hpattern, made⟩ := step
    rcases (by simpa [circle] using hpattern : pattern = renames "a" "b" ∨ pattern = renames "b" "c" ∨ pattern = renames "c" "a") with
      rfl | rfl | rfl
    · exact .inr (.inl (eq_of_renames made))
    · exact .inr (.inr (eq_of_renames made))
    · exact .inl (eq_of_renames made)

theorem resolve_ends_circle : (circle.reachableTexts (.name "a")).Finite ∧
    ∃ passed last d final, circle.InTurn none (.name "a") passed last d ∧
      circle.Concludes "a" ((.name "a" :: passed.map Prod.snd).map Candidate.text) last d final
        (.error (.fault (.unregisteredSchema "a"))) ∧
      circle.resolve (.name "a") = .error (.fault (.unregisteredSchema "a")) := by
  have finite : (circle.reachableTexts (.name "a")).Finite := by
    refine (Set.toFinite {"'a'", "'b'", "'c'"}).subset ?_
    rintro text ⟨d, reached, rfl⟩
    rcases circle_closed reached with rfl | rfl | rfl <;> simp [Candidate.text, quoted]
  have around : circle.resolve (.name "a") = .error (.fault (.unregisteredSchema "a")) := rfl
  obtain ⟨passed, last, d, final, outcome, run, ends, -, -, -, -, resolved⟩ := (resolve_ends finite).2 nofun
  have outcome_eq := resolved circle.limits
  rw [show resolve { circle with limits := circle.limits } (.name "a") = _ from around] at outcome_eq
  split at outcome_eq
  · subst outcome_eq
    exact ⟨finite, passed, last, d, final, run, ends, around⟩
  · cases outcome_eq

end Registry

end WireLayout
