import WireLayout.Proofs.Reading

/-!
# Taking bytes

The two ways in which bytes leave the input, as equations: taking a number of bytes (`take_apply`), and taking the bytes before a
zero byte (`terminated_apply_some`, `terminated_apply_none`). `Bytes.AgreeTo` compares two inputs as far as a position; taking
bytes before that position gives the same on both.
-/

namespace WireLayout

namespace Bytes

/-- Two runs of bytes have the same bytes before a position. -/
def AgreeTo (n : Nat) (a b : Bytes) : Prop := ∀ i < n, a[i]? = b[i]?

theorem AgreeTo.mono {m n : Nat} {a b : Bytes} (h : AgreeTo n a b) (hm : m ≤ n) : AgreeTo m a b :=
  fun i hi => h i (Nat.lt_of_lt_of_le hi hm)

/-- What agrees with bytes is at least as long. -/
theorem AgreeTo.le_size {n : Nat} {a b : Bytes} (h : AgreeTo n a b) (hn : n ≤ b.size) : n ≤ a.size := by
  rcases Nat.lt_or_ge a.size n with hlt | hge
  · have hsome := h a.size hlt
    rw [Array.getElem?_eq_none (Nat.le_refl _), Array.getElem?_eq_getElem (by omega)] at hsome
    cases hsome
  · exact hge

/-- The bytes between two positions are the same when the inputs agree so far. -/
theorem AgreeTo.extract {n : Nat} {a b : Bytes} (h : AgreeTo n a b) (p : Nat) : a.extract p n = b.extract p n := by
  apply Array.ext_getElem?
  intro i
  rw [Array.getElem?_extract, Array.getElem?_extract]
  by_cases hi : i < n - p
  · have hpi : a[p + i]? = b[p + i]? := h (p + i) (by omega)
    by_cases ha : p + i < a.size <;> by_cases hb : p + i < b.size <;> grind
  · grind

/-- Cutting bytes off changes nothing before the cut. -/
theorem agreeTo_extract (a : Bytes) (t : Nat) : AgreeTo t (a.extract 0 t) a := by
  intro i hi
  rw [Array.getElem?_extract]
  by_cases ha : i < a.size <;> grind

/-- So does putting other bytes there. -/
theorem agreeTo_extract_append {a : Bytes} {t : Nat} (h : t ≤ a.size) (rest : Bytes) : AgreeTo t (a.extract 0 t ++ rest) a := by
  intro i hi
  rw [Array.getElem?_append_left (by rw [Array.size_extract]; omega)]
  exact agreeTo_extract a t i hi

/-- Behind other bytes stand the same bytes. -/
theorem extract_append_add (front data : Bytes) (p q : Nat) :
    (front ++ data).extract (front.size + p) (front.size + q) = data.extract p q := by
  simp

end Bytes

/-! ## Taking a number of bytes -/

namespace Unpacking

/-- Taking bytes that are there moves past them. -/
theorem take_apply {data : Bytes} {p n : Nat} (h : p + n ≤ data.size) (scope : Option Scope) :
    take n ⟨⟨data, p⟩, scope⟩ = .ok (data.extract p (p + n), ⟨⟨data, p + n⟩, scope⟩) := by
  have hn : n ≤ data.size - p := by omega
  simp only [take, Walk.onMedium, Cursor.take, Bytes.slice, if_pos hn]
  rfl

/-- Taking more bytes than there are fails. -/
theorem take_apply_of_lt {data : Bytes} {p n : Nat} (h : data.size - p < n) (scope : Option Scope) :
    take n ⟨⟨data, p⟩, scope⟩ = .error (.fault (.bufferUnderflow p n (data.size - p))) := by
  have hn : ¬n ≤ data.size - p := by omega
  simp only [take, Walk.onMedium, Cursor.take, Bytes.slice, if_neg hn]
  rfl

theorem take_eq_ok {data : Bytes} {p n : Nat} {scope : Option Scope} {r : Bytes × WalkState Cursor} :
    take n ⟨⟨data, p⟩, scope⟩ = .ok r ↔ n ≤ data.size - p ∧ r = (data.extract p (p + n), ⟨⟨data, p + n⟩, scope⟩) := by
  simp only [take, Walk.onMedium, Cursor.take, Bytes.slice]
  by_cases hn : n ≤ data.size - p
  · rw [if_pos hn]
    constructor
    · intro h
      cases h
      exact ⟨hn, rfl⟩
    · rintro ⟨-, rfl⟩
      rfl
  · rw [if_neg hn]
    constructor
    · intro h
      cases h
    · rintro ⟨hle, -⟩
      exact absurd hle hn

end Unpacking

/-! ## Taking up to a terminator -/

namespace Text

theorem terminator?_eq_some {data : Bytes} {left i stop : Nat} (h : terminator? data left i = some stop) :
    i ≤ stop ∧ stop < i + left ∧ data[stop]? = some 0 ∧ ∀ j, i ≤ j → j < stop → data[j]? ≠ some 0 := by
  induction left generalizing i with
  | zero => simp [terminator?] at h
  | succ left ih =>
    rw [terminator?] at h
    split at h
    · next hzero =>
      obtain rfl := Option.some.inj h
      exact ⟨Nat.le_refl _, by omega, hzero, fun j hj hlt => absurd hlt (by omega)⟩
    · next hzero =>
      obtain ⟨hle, hlt, hstop, hbefore⟩ := ih h
      refine ⟨by omega, by omega, hstop, ?_⟩
      intro j hj hj'
      by_cases hji : j = i
      · rw [hji]
        exact hzero
      · exact hbefore j (by omega) hj'

theorem terminator?_eq_none {data : Bytes} {left i : Nat} :
    terminator? data left i = none ↔ ∀ j, i ≤ j → j < i + left → data[j]? ≠ some 0 := by
  induction left generalizing i with
  | zero => simp only [terminator?, true_iff]; omega
  | succ left ih =>
    rw [terminator?]
    split
    · next hzero =>
      constructor
      · intro h
        cases h
      · intro h
        exact absurd hzero (h i (Nat.le_refl _) (by omega))
    · next hzero =>
      rw [ih]
      constructor
      · intro h j hj hlt
        by_cases hji : j = i
        · rw [hji]
          exact hzero
        · exact h j (by omega) (by omega)
      · intro h j hj hlt
        exact h j (by omega) (by omega)

/-- The first zero byte is found wherever the search starts before it. -/
theorem terminator?_of_first {data : Bytes} {left i stop : Nat} (hle : i ≤ stop) (hlt : stop < i + left)
    (hstop : data[stop]? = some 0) (hbefore : ∀ j, i ≤ j → j < stop → data[j]? ≠ some 0) :
    terminator? data left i = some stop := by
  cases hfound : terminator? data left i with
  | none => exact absurd hstop (terminator?_eq_none.mp hfound stop hle hlt)
  | some found =>
    obtain ⟨hfle, -, hfzero, hfbefore⟩ := terminator?_eq_some hfound
    rcases Nat.lt_trichotomy found stop with hlt' | heq | hgt
    · exact absurd hfzero (hbefore found hfle hlt')
    · rw [heq]
    · exact absurd hstop (hfbefore stop hle hgt)

/-- A terminated run ends at the first zero byte, and the input moves past it. -/
theorem terminated_apply_some {data : Bytes} {p stop : Nat} (hle : p ≤ stop) (hstop : data[stop]? = some 0)
    (hbefore : ∀ j, p ≤ j → j < stop → data[j]? ≠ some 0) (scope : Option Scope) :
    Walk.onMedium takeTerminated ⟨⟨data, p⟩, scope⟩ = .ok (data.extract p stop, ⟨⟨data, stop + 1⟩, scope⟩) := by
  obtain ⟨hsize, -⟩ := Array.getElem?_eq_some_iff.mp hstop
  have hfound : terminator? data (data.size - p) p = some stop := terminator?_of_first hle (by omega) hstop hbefore
  simp only [Walk.onMedium, takeTerminated, Cursor.remaining, hfound]

/-- Without a zero byte there is no terminated run. -/
theorem terminated_apply_none {data : Bytes} {p : Nat} (h : ∀ j, p ≤ j → data[j]? ≠ some 0) (scope : Option Scope) :
    Walk.onMedium takeTerminated ⟨⟨data, p⟩, scope⟩ =
      .error (.fault (.bufferUnderflow p (data.size - p + 1) (data.size - p))) := by
  have hfound : terminator? data (data.size - p) p = none := terminator?_eq_none.mpr fun j hj _ => h j hj
  simp only [Walk.onMedium, takeTerminated, Cursor.remaining, hfound]

/-- Either there is a first zero byte from a position on, or none at all. -/
theorem terminator_cases (data : Bytes) (p : Nat) :
    (∃ stop, p ≤ stop ∧ stop < data.size ∧ data[stop]? = some 0 ∧ ∀ j, p ≤ j → j < stop → data[j]? ≠ some 0) ∨
      ∀ j, p ≤ j → data[j]? ≠ some 0 := by
  cases hfound : terminator? data (data.size - p) p with
  | some stop =>
    obtain ⟨hle, hlt, hstop, hbefore⟩ := terminator?_eq_some hfound
    exact Or.inl ⟨stop, hle, by omega, hstop, hbefore⟩
  | none =>
    refine Or.inr ?_
    intro j hj hzero
    obtain ⟨hsize, -⟩ := Array.getElem?_eq_some_iff.mp hzero
    exact terminator?_eq_none.mp hfound j hj (by omega) hzero

end Text

end WireLayout
