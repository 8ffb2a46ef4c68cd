import WireLayout.Proofs.Input

/-!
# Reading from another position

Steps move the input forward and stay within it (`Forward`), and they do the same wherever the bytes stand: behind other bytes they
give the same value and move as far (`Relocatable`). Only the offset that a fault reports tells the two runs apart. Both hold for
every schema inside which no kind defined by the user runs (`unpack_forward_relocatable`): such a kind may look at its
position, and may move anywhere.
-/

namespace WireLayout

/-- The same cause, but for the offset at which bytes are missing. -/
inductive Fault.SameUpToOffset : Fault → Fault → Prop where
  | refl (fault : Fault) : SameUpToOffset fault fault
  | underflow (offset offset' needed available : Nat) :
      SameUpToOffset (.bufferUnderflow offset needed available) (.bufferUnderflow offset' needed available)

/-- The same input behind other bytes. -/
def Cursor.behind (c : Cursor) (front : Bytes) : Cursor := ⟨front ++ c.data, front.size + c.position⟩

theorem Cursor.behind_mk (data : Bytes) (p : Nat) (front : Bytes) :
    Cursor.behind ⟨data, p⟩ front = ⟨front ++ data, front.size + p⟩ := rfl

/-- The position lies within the input. -/
def Cursor.InBounds (c : Cursor) : Prop := c.position ≤ c.data.size

@[simp]
theorem Cursor.remaining_behind (c : Cursor) (front : Bytes) : (c.behind front).remaining = c.remaining := by
  simp only [Cursor.remaining, Cursor.behind, Array.size_append]
  omega

@[simp]
theorem Cursor.isEmpty_behind (c : Cursor) (front : Bytes) : (c.behind front).isEmpty = c.isEmpty := by
  simp only [Cursor.isEmpty, Cursor.remaining_behind]

namespace Unpacking

variable {α β : Type}

/-- Successful runs keep the input, and move forward within it. -/
def Forward (step : Unpacking α) : Prop :=
  ∀ c scope a s, c.InBounds → step ⟨c, scope⟩ = .ok (a, s) →
    s.medium.data = c.data ∧ c.position ≤ s.medium.position ∧ s.medium.InBounds

/-- Two results are the same, up to bytes in front of the input. -/
inductive Relocated (front : Bytes) : Except Stop (α × WalkState Cursor) → Except Stop (α × WalkState Cursor) → Prop where
  | ok (a : α) (c : Cursor) (scope : Option Scope) : Relocated front (.ok (a, ⟨c.behind front, scope⟩)) (.ok (a, ⟨c, scope⟩))
  | fault {fault fault' : Fault} (h : fault.SameUpToOffset fault') :
      Relocated front (.error (.fault fault)) (.error (.fault fault'))
  | exhausted : Relocated front (.error .exhausted) (.error .exhausted)

theorem Relocated.error (front : Bytes) (stop : Stop) :
    Relocated front (.error stop : Except Stop (α × WalkState Cursor)) (.error stop) := by
  cases stop with
  | fault fault => exact .fault (.refl fault)
  | exhausted => exact .exhausted

/-- Runs do the same behind other bytes. -/
def Relocatable (step : Unpacking α) : Prop :=
  ∀ front c scope, c.InBounds → Relocated front (step ⟨c.behind front, scope⟩) (step ⟨c, scope⟩)

/-! ## Moving forward -/

theorem Forward.bind {step : Unpacking α} {next : α → Unpacking β} (h : Forward step) (hnext : ∀ a, Forward (next a)) :
    Forward (step >>= next) := by
  intro c scope b s hc hs
  obtain ⟨a, s₁, h₁, h₂⟩ := Walk.bind_eq_ok.mp hs
  obtain ⟨hdata₁, hle₁, hin₁⟩ := h c scope a s₁ hc h₁
  obtain ⟨hdata₂, hle₂, hin₂⟩ := hnext a s₁.medium s₁.scope b s hin₁ h₂
  exact ⟨hdata₂.trans hdata₁, Nat.le_trans hle₁ hle₂, hin₂⟩

theorem forward_take (n : Nat) : Forward (take n) := by
  intro ⟨data, p⟩ scope a s hc hs
  rcases Nat.lt_or_ge (data.size - p) n with hlt | hge
  · rw [take_apply_of_lt hlt] at hs
    cases hs
  · have hp : p ≤ data.size := hc
    have hn : p + n ≤ data.size := by omega
    rw [take_apply hn] at hs
    cases hs
    exact ⟨rfl, Nat.le_add_right p n, hn⟩

theorem forward_terminated : Forward (Walk.onMedium Text.takeTerminated) := by
  intro ⟨data, p⟩ scope a s hc hs
  rcases Text.terminator_cases data p with ⟨stop, hle, hsize, hstop, hbefore⟩ | hnone
  · rw [Text.terminated_apply_some hle hstop hbefore] at hs
    cases hs
    exact ⟨rfl, Nat.le_succ_of_le hle, hsize⟩
  · rw [Text.terminated_apply_none hnone] at hs
    cases hs

/-- A step that leaves the cursor alone moves nowhere. -/
theorem forward_of_still {step : Unpacking α} (h : ∀ c scope a s, step ⟨c, scope⟩ = .ok (a, s) → s.medium = c) :
    Forward step := by
  intro c scope a s hc hs
  have hm := h c scope a s hs
  rw [hm]
  exact ⟨rfl, Nat.le_refl _, hc⟩

theorem Forward.within {step : Unpacking α} (h : Forward step) (inner : Scope) : Forward (Walk.within inner step) := by
  intro c scope a s hc hs
  obtain ⟨b, s', hrun, ⟨⟩⟩ := Walk.within_eq_ok.mp hs
  exact h c (some inner) b s' hc hrun

theorem Forward.untilEnd {step : Unpacking Value} (h : Forward step) (rounds : Nat) (done : List Value) :
    Forward (Elements.untilEnd step rounds done) := by
  induction rounds generalizing done with
  | zero =>
    intro c scope a s hc hs
    cases hs
  | succ rounds ih =>
    intro c scope a s hc hs
    simp only [Elements.untilEnd] at hs
    split at hs
    · cases hs
      exact ⟨rfl, Nat.le_refl _, hc⟩
    · cases hrun : step ⟨c, scope⟩ with
      | error stop =>
        rw [hrun] at hs
        cases hs
      | ok result =>
        obtain ⟨v, s₁⟩ := result
        obtain ⟨hdata₁, hle₁, hin₁⟩ := h c scope v s₁ hc hrun
        rw [hrun] at hs
        dsimp only at hs
        split at hs
        · cases hs
          exact ⟨hdata₁, hle₁, hin₁⟩
        · obtain ⟨hdata₂, hle₂, hin₂⟩ := ih (v :: done) s₁.medium s₁.scope a s hin₁ hs
          exact ⟨hdata₂.trans hdata₁, Nat.le_trans hle₁ hle₂, hin₂⟩

theorem compositional_forward : Compositional fun _ step => Forward step where
  onScope f := by
    refine forward_of_still ?_
    intro c scope a s hs
    obtain ⟨_, _, -, ⟨⟩⟩ := Walk.onScope_eq_ok.mp hs
    rfl
  bind := Forward.bind
  take := forward_take
  terminated := forward_terminated
  within scope _ h := h.within scope
  aside other step := by
    refine forward_of_still ?_
    intro c scope a s hs
    obtain ⟨_, _, -, ⟨⟩⟩ := Walk.aside_eq_ok.mp hs
    rfl

theorem openEnded_forward : OpenEnded fun _ step => Forward step where
  remaining := forward_of_still fun c scope a s hs => by cases hs; rfl
  untilEnd h := Forward.bind (forward_of_still fun c scope a s hs => by cases hs; rfl) fun c => h.untilEnd _ []

/-! ## Reading behind other bytes -/

theorem Relocatable.bind {step : Unpacking α} {next : α → Unpacking β} (hf : Forward step) (h : Relocatable step)
    (hnext : ∀ a, Relocatable (next a)) : Relocatable (step >>= next) := by
  intro front c scope hc
  rw [Walk.bind_apply, Walk.bind_apply]
  have hr := h front c scope hc
  cases hrun : step ⟨c, scope⟩ with
  | error stop =>
    rw [hrun] at hr
    generalize step ⟨c.behind front, scope⟩ = moved at hr
    cases hr with
    | fault hfault => exact .fault hfault
    | exhausted => exact .exhausted
  | ok result =>
    obtain ⟨a, s₁⟩ := result
    obtain ⟨-, -, hin⟩ := hf c scope a s₁ hc hrun
    rw [hrun] at hr
    generalize step ⟨c.behind front, scope⟩ = moved at hr
    cases hr with
    | ok a c₁ scope₁ => exact hnext a front c₁ scope₁ hin

/-- A step that leaves the cursor alone and does not look at it. -/
theorem relocatable_of_still {step : Unpacking α}
    (h : ∀ c c' scope, step ⟨c', scope⟩ = (step ⟨c, scope⟩).map fun result => (result.1, ⟨c', result.2.scope⟩)) :
    Relocatable step := by
  intro front c scope _
  rw [h c (c.behind front) scope, h c c scope]
  cases step ⟨c, scope⟩ with
  | error stop => exact .error front stop
  | ok result => exact .ok result.1 c result.2.scope

theorem relocatable_take (n : Nat) : Relocatable (take n) := by
  intro front ⟨data, p⟩ scope hc
  have hp : p ≤ data.size := hc
  have hsize : (front ++ data).size = front.size + data.size := Array.size_append
  rcases Nat.lt_or_ge (data.size - p) n with hlt | hge
  · rw [Cursor.behind_mk, take_apply_of_lt (by omega), take_apply_of_lt hlt]
    have hleft : (front ++ data).size - (front.size + p) = data.size - p := by omega
    rw [hleft]
    exact .fault (.underflow _ _ _ _)
  · rw [Cursor.behind_mk, take_apply (by omega), take_apply (by omega)]
    have hbytes : (front ++ data).extract (front.size + p) (front.size + p + n) = data.extract p (p + n) := by
      rw [Nat.add_assoc, Bytes.extract_append_add]
    rw [hbytes, Nat.add_assoc]
    exact .ok _ ⟨data, p + n⟩ scope

theorem relocatable_terminated : Relocatable (Walk.onMedium Text.takeTerminated) := by
  intro front ⟨data, p⟩ scope hc
  have hbyte : ∀ i, (front ++ data)[front.size + i]? = data[i]? := fun i => by
    rw [Array.getElem?_append_right (Nat.le_add_right _ _), Nat.add_sub_cancel_left]
  rcases Text.terminator_cases data p with ⟨stop, hle, hsize, hstop, hbefore⟩ | hnone
  · have hbefore' : ∀ j, front.size + p ≤ j → j < front.size + stop → (front ++ data)[j]? ≠ some 0 := by
      intro j hj hlt
      obtain ⟨i, rfl⟩ := Nat.exists_eq_add_of_le (Nat.le_trans (Nat.le_add_right _ _) hj)
      rw [hbyte]
      exact hbefore i (by omega) (by omega)
    rw [Cursor.behind_mk, Text.terminated_apply_some (by omega) ((hbyte stop).trans hstop) hbefore',
      Text.terminated_apply_some hle hstop hbefore]
    rw [Bytes.extract_append_add]
    exact .ok _ ⟨data, stop + 1⟩ scope
  · have hnone' : ∀ j, front.size + p ≤ j → (front ++ data)[j]? ≠ some 0 := by
      intro j hj
      obtain ⟨i, rfl⟩ := Nat.exists_eq_add_of_le (Nat.le_trans (Nat.le_add_right _ _) hj)
      rw [hbyte]
      exact hnone i (by omega)
    have hleft : (front ++ data).size - (front.size + p) = data.size - p := by
      rw [Array.size_append]
      omega
    rw [Cursor.behind_mk, Text.terminated_apply_none hnone', Text.terminated_apply_none hnone, hleft]
    exact .fault (.underflow _ _ _ _)

theorem Relocatable.within {step : Unpacking α} (h : Relocatable step) (inner : Scope) :
    Relocatable (Walk.within inner step) := by
  intro front c scope hc
  simp only [Walk.within]
  have hr := h front c (some inner) hc
  generalize step ⟨c.behind front, some inner⟩ = moved at hr
  generalize step ⟨c, some inner⟩ = result at hr
  cases hr with
  | ok a c₁ scope₁ => exact .ok _ c₁ scope
  | fault hfault => exact .fault hfault
  | exhausted => exact .exhausted

/-- Reading to the end does the same under any number of rounds that is larger than the number of bytes left. -/
theorem Relocatable.untilEnd {step : Unpacking Value} (hf : Forward step) (h : Relocatable step) (front : Bytes)
    (rounds rounds' : Nat) (done : List Value) (c : Cursor) (scope : Option Scope) (hc : c.InBounds)
    (hr : c.remaining < rounds) (hr' : c.remaining < rounds') :
    Relocated front (Elements.untilEnd step rounds done ⟨c.behind front, scope⟩)
      (Elements.untilEnd step rounds' done ⟨c, scope⟩) := by
  induction rounds generalizing rounds' done c scope with
  | zero => exact absurd hr (Nat.not_lt_zero _)
  | succ rounds ih =>
    obtain ⟨rounds', rfl⟩ : ∃ n, rounds' = n + 1 := ⟨rounds' - 1, by omega⟩
    simp only [Elements.untilEnd, Cursor.isEmpty_behind]
    by_cases hend : c.isEmpty = true
    · rw [if_pos hend, if_pos hend]
      exact .ok _ c scope
    · rw [if_neg hend, if_neg hend]
      have hstep := h front c scope hc
      cases hrun : step ⟨c, scope⟩ with
      | error stop =>
        rw [hrun] at hstep
        generalize step ⟨c.behind front, scope⟩ = moved at hstep
        cases hstep with
        | fault hfault => exact .fault hfault
        | exhausted => exact .exhausted
      | ok result =>
        obtain ⟨v, s₁⟩ := result
        obtain ⟨hdata, hle, hin⟩ := hf c scope v s₁ hc hrun
        rw [hrun] at hstep
        generalize step ⟨c.behind front, scope⟩ = moved at hstep
        cases hstep with
        | ok v c₁ scope₁ =>
          simp only [Cursor.behind, Nat.add_left_cancel_iff]
          by_cases hstill : c₁.position = c.position
          · rw [if_pos hstill, if_pos hstill]
            exact .ok _ c₁ scope₁
          · rw [if_neg hstill, if_neg hstill]
            have hless : c₁.remaining < c.remaining := by
              have hin' : c₁.position ≤ c₁.data.size := hin
              simp only [Cursor.remaining]
              dsimp only at hdata hle
              rw [hdata] at hin' ⊢
              omega
            exact ih rounds' (v :: done) c₁ scope₁ hin (by omega) (by omega)

/-- Reading that moves forward and does the same behind other bytes. -/
theorem compositional_relocatable : Compositional fun _ step => Forward step ∧ Relocatable step where
  onScope f := by
    refine ⟨compositional_forward.onScope f, relocatable_of_still ?_⟩
    intro c c' scope
    simp only [Walk.onScope]
    cases f scope <;> rfl
  bind h hnext := ⟨h.1.bind fun a => (hnext a).1, h.2.bind h.1 fun a => (hnext a).2⟩
  take n := ⟨forward_take n, relocatable_take n⟩
  terminated := ⟨forward_terminated, relocatable_terminated⟩
  within scope _ h := ⟨h.1.within scope, h.2.within scope⟩
  aside other step := by
    refine ⟨compositional_forward.aside other step, relocatable_of_still ?_⟩
    intro c c' scope
    simp only [Walk.aside]
    cases step ⟨other, scope⟩ <;> rfl

theorem openEnded_relocatable : OpenEnded fun _ step => Forward step ∧ Relocatable step where
  remaining := by
    refine ⟨openEnded_forward.remaining, ?_⟩
    intro front c scope _
    have hleft : remaining ⟨c.behind front, scope⟩ = .ok (c.remaining, ⟨c.behind front, scope⟩) := by
      rw [← Cursor.remaining_behind c front]
      rfl
    rw [hleft]
    exact .ok _ c scope
  untilEnd {step} h := by
    refine ⟨openEnded_forward.untilEnd h.1, ?_⟩
    intro front c scope hc
    have hrounds : ∀ data : Bytes, data.size < Elements.roundsFor data := fun data => by
      rw [Elements.roundsFor]
      omega
    have hleft : c.remaining ≤ c.data.size := Nat.sub_le _ _
    have hsize : c.data.size ≤ (c.behind front).data.size := by
      rw [Cursor.behind, Array.size_append]
      omega
    refine h.2.untilEnd h.1 front _ _ [] c scope hc ?_ ?_
    · exact Nat.lt_of_le_of_lt (Nat.le_trans hleft hsize) (hrounds _)
    · exact Nat.lt_of_le_of_lt hleft (hrounds _)

end Unpacking

namespace Codec

open Unpacking

variable {Γ : Context} {site : Site}

/-- Reading a schema moves forward, and does the same behind other bytes, unless a kind defined by the user runs inside. -/
theorem unpack_forward_relocatable (depth : Nat)
    (hsite : Site.Throughout Γ.registry .any (fun site => site.schema.isCustom = false) site) :
    Forward (unpack Γ depth site.schema) ∧ Relocatable (unpack Γ depth site.schema) := by
  induction depth generalizing site with
  | zero => exact compositional_relocatable.giveUp
  | succ depth ih =>
    obtain ⟨schema, place, isParsed⟩ := site
    exact compositional_relocatable.unpackStep place isParsed hsite.here (fun _ => openEnded_relocatable)
      fun _ inner hin => ih (hsite.of_runs hin)

end Codec

end WireLayout
