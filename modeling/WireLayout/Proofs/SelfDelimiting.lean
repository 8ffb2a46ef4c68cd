import WireLayout.Proofs.Approximation
import WireLayout.Proofs.Input

/-!
# Formats that delimit themselves

A step is self-delimiting when a successful run of it depends on the bytes that it moves over and on no others: with other bytes
behind them it does the same, and when the input is cut among them it fails because bytes are missing. Everything that reading is
made of is self-delimiting but for counts that the end of the input implies, so the same holds of every run that meets no such
count (`unpack_selfDelimiting`).
-/

namespace WireLayout

/-- A run failed because the input ended. -/
def Underflows {α : Type} (result : Except Stop α) : Prop :=
  ∃ offset needed available, result = .error (.fault (.bufferUnderflow offset needed available))

namespace Unpacking

variable {α β : Type}

/-- A run that gives `a` and moves from `p` to `q` depends on the bytes in between and on nothing behind them. -/
structure Delimits (step : Unpacking α) (data : Bytes) (p : Nat) (scope : Option Scope) (a : α) (q : Nat)
    (scope' : Option Scope) : Prop where
  forward : p ≤ q
  inside : q ≤ data.size
  /-- Other bytes behind `q` change nothing. -/
  same : ∀ other, Bytes.AgreeTo q other data → step ⟨⟨other, p⟩, scope⟩ = .ok (a, ⟨⟨other, q⟩, scope'⟩)
  /-- An input that is cut before `q` is too short. -/
  cut : ∀ t, p ≤ t → t < q → Underflows (step ⟨⟨data.extract 0 t, p⟩, scope⟩)

/-- Every successful run depends on the bytes that it moves over and on nothing behind them. -/
def SelfDelimiting (step : Unpacking α) : Prop :=
  ∀ data p scope a s, p ≤ data.size → step ⟨⟨data, p⟩, scope⟩ = .ok (a, s) →
    ∃ q scope', s = ⟨⟨data, q⟩, scope'⟩ ∧ Delimits step data p scope a q scope'

/-- A step that moves over nothing and looks at no bytes is self-delimiting. -/
theorem selfDelimiting_of_still {step : Unpacking α}
    (h : ∀ c c' scope a s, step ⟨c, scope⟩ = .ok (a, s) → s.medium = c ∧ step ⟨c', scope⟩ = .ok (a, ⟨c', s.scope⟩)) :
    SelfDelimiting step := by
  intro data p scope a s hp hs
  obtain ⟨medium, scope'⟩ := s
  obtain ⟨rfl, -⟩ := h _ ⟨data, p⟩ scope a _ hs
  refine ⟨p, scope', rfl, Nat.le_refl p, hp, fun other _ => (h _ ⟨other, p⟩ scope a _ hs).2, fun t ht hlt => ?_⟩
  exact absurd hlt (Nat.not_lt_of_le ht)

theorem selfDelimiting_take (n : Nat) : SelfDelimiting (take n) := by
  intro data p scope a s hp hs
  rcases Nat.lt_or_ge (data.size - p) n with hlt | hge
  · rw [take_apply_of_lt hlt] at hs
    cases hs
  · have hn : p + n ≤ data.size := by omega
    rw [take_apply hn] at hs
    cases hs
    refine ⟨p + n, scope, rfl, by omega, hn, ?_, ?_⟩
    · intro other hagree
      rw [take_apply (hagree.le_size hn), hagree.extract]
    · intro t ht hlt
      refine ⟨_, _, _, take_apply_of_lt ?_ scope⟩
      rw [Array.size_extract]
      omega

theorem selfDelimiting_terminated : SelfDelimiting (Walk.onMedium Text.takeTerminated) := by
  intro data p scope a s hp hs
  rcases Text.terminator_cases data p with ⟨stop, hle, hsize, hstop, hbefore⟩ | hnone
  · rw [Text.terminated_apply_some hle hstop hbefore] at hs
    cases hs
    refine ⟨stop + 1, scope, rfl, by omega, by omega, ?_, ?_⟩
    · intro other hagree
      have hbefore' : ∀ j, p ≤ j → j < stop → other[j]? ≠ some 0 := by
        intro j hj hjs
        rw [hagree j (by omega)]
        exact hbefore j hj hjs
      rw [Text.terminated_apply_some hle ((hagree stop (by omega)).trans hstop) hbefore']
      rw [(hagree.mono (Nat.le_succ stop)).extract]
    · intro t ht hlt
      refine ⟨_, _, _, Text.terminated_apply_none ?_ scope⟩
      intro j hj hzero
      obtain ⟨hjt, -⟩ := Array.getElem?_eq_some_iff.mp hzero
      rw [Array.size_extract] at hjt
      rw [Bytes.agreeTo_extract data t j (by omega)] at hzero
      exact hbefore j hj (by omega) hzero
  · rw [Text.terminated_apply_none hnone] at hs
    cases hs

/-- One self-delimiting step after another: a cut falls into the bytes of the first one or of the second. -/
theorem SelfDelimiting.bind {step : Unpacking α} {next : α → Unpacking β} (h : SelfDelimiting step)
    (hnext : ∀ a, SelfDelimiting (next a)) : SelfDelimiting (step >>= next) := by
  intro data p scope b s hp hs
  obtain ⟨a, s₁, h₁, h₂⟩ := Walk.bind_eq_ok.mp hs
  obtain ⟨m, scope₁, rfl, d₁⟩ := h data p scope a s₁ hp h₁
  obtain ⟨q, scope', rfl, d₂⟩ := hnext a data m scope₁ b s d₁.inside h₂
  have hmq : m ≤ q := d₂.forward
  refine ⟨q, scope', rfl, Nat.le_trans d₁.forward hmq, d₂.inside, ?_, ?_⟩
  · intro other hagree
    rw [Walk.bind_apply, d₁.same other (hagree.mono hmq)]
    exact d₂.same other hagree
  · intro t ht hlt
    rw [Walk.bind_apply]
    rcases Nat.lt_or_ge t m with htm | hmt
    · obtain ⟨offset, needed, available, hcut⟩ := d₁.cut t ht htm
      rw [hcut]
      exact ⟨offset, needed, available, rfl⟩
    · rw [d₁.same _ ((Bytes.agreeTo_extract data t).mono hmt)]
      exact d₂.cut t hmt hlt

theorem SelfDelimiting.within {step : Unpacking α} (h : SelfDelimiting step) (inner : Scope) :
    SelfDelimiting (Walk.within inner step) := by
  intro data p scope a s hp hs
  obtain ⟨b, s₁, hrun, ⟨⟩⟩ := Walk.within_eq_ok.mp hs
  obtain ⟨q, scope₁, rfl, d⟩ := h data p (some inner) b s₁ hp hrun
  refine ⟨q, scope, rfl, d.forward, d.inside, ?_, ?_⟩
  · intro other hagree
    simp only [Walk.within, d.same other hagree]
  · intro t ht hlt
    obtain ⟨offset, needed, available, hcut⟩ := d.cut t ht hlt
    refine ⟨offset, needed, available, ?_⟩
    simp only [Walk.within, hcut]

/-- All that reading is made of is self-delimiting. -/
theorem compositional_selfDelimiting : Compositional fun _ step => SelfDelimiting step where
  onScope f := by
    refine selfDelimiting_of_still ?_
    intro c c' scope a s hs
    simp only [Walk.onScope] at hs ⊢
    split at hs
    · cases hs
      exact ⟨rfl, by simp_all⟩
    · cases hs
  bind := SelfDelimiting.bind
  take := selfDelimiting_take
  terminated := selfDelimiting_terminated
  within scope _ h := h.within scope
  aside other step := by
    refine selfDelimiting_of_still ?_
    intro c c' scope a s hs
    simp only [Walk.aside] at hs ⊢
    split at hs
    · cases hs
      exact ⟨rfl, by simp_all⟩
    · cases hs

end Unpacking

/-- Whether the bytes of a schema end by themselves: nothing is known of a kind defined by the user, and where the end of the input
implies a count, it is the input that ends them. -/
def Schema.endsByItself (schema : Schema) : Bool := !schema.isCustom && !schema.runsToEnd

namespace Codec

open Unpacking

variable {Γ : Context}

/-- Reading that gives up at schemas whose bytes do not end by themselves is self-delimiting. -/
theorem selfDelimiting_unpackAdmitting (depth : Nat) (schema : Schema) :
    SelfDelimiting (unpackAdmitting Γ Schema.endsByItself depth schema) := by
  induction depth generalizing schema with
  | zero => exact compositional_selfDelimiting.giveUp
  | succ depth ih =>
    rw [unpackAdmitting]
    split
    · next hadmits =>
      simp only [Schema.endsByItself, Bool.and_eq_true, Bool.not_eq_true'] at hadmits
      obtain ⟨hcustom, hauto⟩ := hadmits
      refine compositional_selfDelimiting.unpackStep none false hcustom ?_ ?_
      · rw [hauto]
        intro h
        cases h
      · intro hopens site _
        rw [if_neg (by simp [hopens])]
        exact ih _
    · exact compositional_selfDelimiting.giveUp

/-- A format is self-delimiting: when a run that meets only schemas whose bytes end by themselves moves from `p` to `q`, it stays
within the input, other bytes behind `q` give the same value and the same end, and an input that is cut before `q` is too short. -/
theorem unpack_selfDelimiting (depth : Nat) (schema : Schema) (data : Bytes) (p : Nat) (scope : Option Scope) (v : Value)
    (s : WalkState Cursor) (hp : p ≤ data.size)
    (hmeets : MeetsOnly Γ Schema.endsByItself depth schema ⟨⟨data, p⟩, scope⟩)
    (hrun : unpack Γ depth schema ⟨⟨data, p⟩, scope⟩ = .ok (v, s)) :
    ∃ q scope', s = ⟨⟨data, q⟩, scope'⟩ ∧ p ≤ q ∧ q ≤ data.size ∧
      (∀ rest, unpack Γ depth schema ⟨⟨data.extract 0 q ++ rest, p⟩, scope⟩ =
        .ok (v, ⟨⟨data.extract 0 q ++ rest, q⟩, scope'⟩)) ∧
      ∀ t, p ≤ t → t < q → Underflows (unpack Γ depth schema ⟨⟨data.extract 0 t, p⟩, scope⟩) := by
  have happrox := unpackAdmitting_approximates (Γ := Γ) Schema.endsByItself depth schema
  obtain ⟨q, scope', rfl, d⟩ := selfDelimiting_unpackAdmitting depth schema data p scope v s hp (hmeets.trans hrun)
  refine ⟨q, scope', rfl, d.forward, d.inside, ?_, ?_⟩
  · intro rest
    have hagree : Bytes.AgreeTo q (data.extract 0 q ++ rest) data := Bytes.agreeTo_extract_append d.inside rest
    exact happrox.eq_ok (d.same _ hagree)
  · intro t ht hlt
    obtain ⟨offset, needed, available, hcut⟩ := d.cut t ht hlt
    exact ⟨offset, needed, available, happrox.eq_fault hcut⟩

/-- Behind a packet nothing is looked at, and no shorter input is accepted. -/
theorem unpack_selfDelimiting_packet :
    (∀ rest, unpack Packet.context 4 Packet.schema ⟨⟨Packet.bytes.extract 0 7 ++ rest, 0⟩, none⟩ =
        .ok (Packet.value, ⟨⟨Packet.bytes.extract 0 7 ++ rest, 7⟩, none⟩)) ∧
      ∀ t, t < 7 → Underflows (unpack Packet.context 4 Packet.schema ⟨⟨Packet.bytes.extract 0 t, 0⟩, none⟩) := by
  have hmeets : MeetsOnly Packet.context Schema.endsByItself 4 Packet.schema ⟨⟨Packet.bytes, 0⟩, none⟩ := by rfl
  have hrun : unpack Packet.context 4 Packet.schema ⟨⟨Packet.bytes, 0⟩, none⟩ = .ok (Packet.value, ⟨⟨Packet.bytes, 7⟩, none⟩) := by
    rfl
  obtain ⟨q, scope', hend, -, -, hsame, hcut⟩ := unpack_selfDelimiting 4 Packet.schema Packet.bytes 0 none _ _ (by decide) hmeets hrun
  cases hend
  exact ⟨hsame, fun t ht => hcut t (Nat.zero_le t) ht⟩

end Codec

end WireLayout
