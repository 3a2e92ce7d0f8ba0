import Mathlib
import LazySeq.Proofs.PowerSeries.Product

/-!
# The derivative and the integral undo each other

`derivativeSeq a` is the formal derivative of a coefficient sequence: coefficient `k` is
`a_{k+1} · (k + 1)`, so it has one coefficient fewer than `a`. `integralSeq a` is the integral
with constant zero: `0`, then `a_k / (k + 1)` at `k + 1`, one coefficient more than `a`. Read
exactly, each undoes the other up to the constant term (`derivativeSeq_integralSeq`,
`integralSeq_derivativeSeq`).

The adapters compute them lazily. `DerivativeAt a R` is what the derivative holds after `k`
outputs: before its first call it has read nothing; after it, it has skipped the constant term
and read one more coefficient per output, as far as `a` goes. `IntegralAt R` counts the leading
zero as the first output, then one coefficient of the input per output.

**Main statement.** `derivative_integral_inverse`: over any input that streams `a`, finite or
not, the derivative of the integral streams `a` itself, and the integral of the derivative
streams `a` with its constant term replaced by zero; a finite `a` of length `m` has a derivative
of `m - 1` coefficients and an integral of `m + 1`.
-/

namespace LazySeq

open Stream' Coefficient

variable {σ : Type}

/-! ## Derivative and integral of a coefficient sequence -/

/-- The formal derivative: coefficient `k` is `a_{k+1} · (k + 1)`. -/
def derivativeSeq (a : Seq ℚ) : Seq ℚ :=
  .zipWith (· * ·) a.tail (.ofStream fun k => ((k + 1 : ℕ) : ℚ))

/-- The integral with constant zero: `0`, then `a_k / (k + 1)` at `k + 1`. -/
def integralSeq (a : Seq ℚ) : Seq ℚ :=
  .cons 0 (.zipWith (· / ·) a (.ofStream fun k => ((k + 1 : ℕ) : ℚ)))

@[simp] theorem get?_derivativeSeq (a : Seq ℚ) (k : ℕ) :
    (derivativeSeq a).get? k = (a.get? (k + 1)).map (· * ((k + 1 : ℕ) : ℚ)) := by
  simp only [derivativeSeq, Seq.get?_zipWith, Seq.get?_tail]
  cases a.get? (k + 1) <;> rfl

@[simp] theorem get?_integralSeq_zero (a : Seq ℚ) : (integralSeq a).get? 0 = some 0 :=
  rfl

@[simp] theorem get?_integralSeq_succ (a : Seq ℚ) (k : ℕ) :
    (integralSeq a).get? (k + 1) = (a.get? k).map (· / ((k + 1 : ℕ) : ℚ)) := by
  simp only [integralSeq, Seq.get?_cons_succ, Seq.get?_zipWith]
  cases a.get? k <;> rfl

/-- Differentiating the integral gives the sequence back. -/
theorem derivativeSeq_integralSeq (a : Seq ℚ) : derivativeSeq (integralSeq a) = a := by
  refine Seq.ext fun k => ?_
  rw [get?_derivativeSeq, get?_integralSeq_succ, Option.map_map]
  have hk : ((k + 1 : ℕ) : ℚ) ≠ 0 := Nat.cast_ne_zero.2 (Nat.succ_ne_zero k)
  cases a.get? k with
  | none => rfl
  | some x => exact congrArg some (div_mul_cancel₀ x hk)

/-- Integrating the derivative gives the sequence back with its constant term zero. -/
theorem integralSeq_derivativeSeq (a : Seq ℚ) : integralSeq (derivativeSeq a) = .cons 0 a.tail := by
  refine Seq.ext fun k => ?_
  cases k with
  | zero => rfl
  | succ k =>
    rw [get?_integralSeq_succ, get?_derivativeSeq, Option.map_map, Seq.get?_cons_succ,
      Seq.get?_tail]
    have hk : ((k + 1 : ℕ) : ℚ) ≠ 0 := Nat.cast_ne_zero.2 (Nat.succ_ne_zero k)
    cases a.get? (k + 1) with
    | none => rfl
    | some x => exact congrArg some (mul_div_cancel_right₀ x hk)

/-- Replacing the constant term by zero changes no other coefficient. -/
theorem get?_cons_zero_tail (a : Seq ℚ) (n : ℕ) :
    (Seq.cons 0 a.tail).get? n = if n = 0 then some 0 else a.get? n := by
  cases n with
  | zero => rfl
  | succ n => simp [Seq.get?_tail]

/-- A finite sequence of length `m` has a derivative of `m - 1` coefficients. -/
theorem isSome_derivativeSeq_iff {a : Seq ℚ} {m : ℕ} (h : a.length' = m) (n : ℕ) :
    ((derivativeSeq a).get? n).isSome ↔ n + 1 < m := by
  rw [get?_derivativeSeq, Option.isSome_map, isSome_get?_iff_of_length' h]

/-- A finite sequence of length `m` has an integral of `m + 1` coefficients. -/
theorem isSome_integralSeq_iff {a : Seq ℚ} {m : ℕ} (h : a.length' = m) (n : ℕ) :
    ((integralSeq a).get? n).isSome ↔ n < m + 1 := by
  cases n with
  | zero => simp
  | succ n => rw [get?_integralSeq_succ, Option.isSome_map, isSome_get?_iff_of_length' h]; omega

/-! ## The integral, one output at a time -/

/-- The integral after `k` outputs: its index is `k`, and the input has handed out the `k - 1`
coefficients behind the outputs after the leading zero. -/
def IntegralAt (R : σ → ℕ → Prop) (p : ℕ × σ) (k : ℕ) : Prop := p.1 = k ∧ R p.2 (k - 1)

namespace Integral

variable {input : Feed σ ℚ} {a : Seq ℚ} {R : σ → ℕ → Prop}

/-- Over an input that streams `a`, the integral streams `integralSeq a`. -/
theorem streams (h : input.Streams a R) : (Integral.feed input).Streams (integralSeq a) (IntegralAt R) where
  hasNext := by
    rintro ⟨index, s⟩ k ⟨rfl, hs⟩
    cases index with
    | zero => exact ⟨(0, s), rfl, rfl, hs⟩
    | succ k =>
      obtain ⟨s', hh, hs'⟩ := h.hasNext hs
      refine ⟨(k + 1, s'), ?_, rfl, hs'⟩
      simp [Integral.feed, Integral.hasNext, hh]
  tryNext := by
    rintro ⟨index, s⟩ k c ⟨rfl, hs⟩ hc
    cases index with
    | zero =>
      -- the leading zero comes first, without reading the input
      rw [get?_integralSeq_zero, Option.some_inj] at hc
      exact ⟨(1, s), by simp [Integral.feed, Integral.tryNext, ← hc], rfl, hs⟩
    | succ k =>
      rw [get?_integralSeq_succ, Option.map_eq_some_iff] at hc
      obtain ⟨x, hx, rfl⟩ := hc
      obtain ⟨s', ht, hs'⟩ := h.tryNext hs hx
      exact ⟨(k + 2, s'), by simp [Integral.feed, Integral.tryNext, ht], rfl, hs'⟩

theorem integralAt_initial {s : σ} (hs : R s 0) : IntegralAt R (0, s) 0 := ⟨rfl, hs⟩

end Integral

/-! ## The derivative, one output at a time -/

/-- The derivative after `k` outputs: before its first call it has read nothing; after it, its
index is `k + 1` and the input has handed out the first `k + 1` coefficients of `a`, or all of
them when `a` is shorter. -/
def DerivativeAt (a : Seq ℚ) (R : σ → ℕ → Prop) (p : ℕ × σ) (k : ℕ) : Prop :=
  (p.1 = 0 ∧ k = 0 ∧ R p.2 0) ∨ (p.1 = k + 1 ∧ R p.2 (a.take (k + 1)).length)

namespace Derivative

variable {input : Feed σ ℚ} {a : Seq ℚ} {R : σ → ℕ → Prop}

/-- The first call skips the constant term, if any, and the count of coefficients read is then
that of the first one. -/
theorem skipConstant_zero (h : input.Streams a R) {s : σ} (hs : R s 0) :
    ∃ s', Derivative.skipConstant input 0 s = (.ok (), 1, s') ∧ R s' (a.take 1).length := by
  cases h0 : a.get? 0 with
  | none =>
    obtain ⟨s', hp, hs'⟩ := h.pull_none hs h0
    have htake : (a.take 1).length = 0 := by simp [seq_take_succ, h0]
    exact ⟨s', by simp [Derivative.skipConstant, hp], by rwa [htake]⟩
  | some x =>
    obtain ⟨s', hp, hs'⟩ := h.pull_some hs h0
    exact ⟨s', by simp [Derivative.skipConstant, hp], by rwa [length_take_one (by simp [h0])]⟩

/-- A sequence with an element at `i` has its first `j` elements for every `j ≤ i + 1`. -/
theorem length_take_of_isSome {xs : Seq ℚ} {i : ℕ} (h : (xs.get? i).isSome) :
    ∀ {j : ℕ}, j ≤ i + 1 → (xs.take j).length = j
  | 0, _ => by simp
  | j + 1, hj => Nat.le_antisymm Seq.length_take_le
      ((isSome_get?_iff_lt_length_take (Nat.lt_succ_self j)).1 (isSome_get?_of_le (by omega) h))

/-- Once the constant term is skipped, the index stays. -/
theorem skipConstant_succ (k : ℕ) (s : σ) :
    Derivative.skipConstant input (k + 1) s = (.ok (), k + 1, s) :=
  rfl

/-- From any state the derivative holds, the next call finds the constant term skipped: the
index is `k + 1` and the first `k + 1` coefficients, as far as `a` goes, are handed out. -/
theorem skipConstant_at (h : input.Streams a R) {p : ℕ × σ} {k : ℕ} (hp : DerivativeAt a R p k) :
    ∃ s', Derivative.skipConstant input p.1 p.2 = (.ok (), k + 1, s') ∧
      R s' (a.take (k + 1)).length := by
  rcases hp with ⟨h0, rfl, hs⟩ | ⟨h1, hs⟩
  · rw [h0]
    exact skipConstant_zero h hs
  · rw [h1]
    exact ⟨p.2, skipConstant_succ k p.2, hs⟩

/-- Over an input that streams `a`, the derivative streams `derivativeSeq a`. -/
theorem streams (h : input.Streams a R) :
    (Derivative.feed input).Streams (derivativeSeq a) (DerivativeAt a R) where
  hasNext := by
    intro p k hp
    obtain ⟨s₁, hskip, hs₁⟩ := skipConstant_at h hp
    obtain ⟨s₂, hh, hs₂⟩ := h.hasNext hs₁
    refine ⟨(k + 1, s₂), ?_, .inr ⟨rfl, hs₂⟩⟩
    -- the input is asked at the first coefficient not yet read, which is `k + 1`
    rw [get?_length_take] at hh
    simp [Derivative.feed, Derivative.hasNext, hskip, hh]
  tryNext := by
    intro p k c hp hc
    rw [get?_derivativeSeq, Option.map_eq_some_iff] at hc
    obtain ⟨x, hx, rfl⟩ := hc
    obtain ⟨s₁, hskip, hs₁⟩ := skipConstant_at h hp
    -- coefficient `k + 1` exists, so the first `k + 1` and `k + 2` are all there
    have hsome : (a.get? (k + 1)).isSome := by simp [hx]
    rw [length_take_of_isSome hsome (by omega)] at hs₁
    obtain ⟨s₂, ht, hs₂⟩ := h.tryNext hs₁ hx
    refine ⟨(k + 2, s₂), ?_, .inr ⟨rfl, by rwa [length_take_of_isSome hsome le_rfl]⟩⟩
    simp [Derivative.feed, Derivative.tryNext, hskip, ht]

theorem derivativeAt_initial {s : σ} (hs : R s 0) : DerivativeAt a R (0, s) 0 := .inl ⟨rfl, rfl, hs⟩

end Derivative

/-! ## The two undo each other -/

/-- **The derivative and the integral undo each other.** Read exactly, over any input that
streams a coefficient sequence `a`, finite or infinite: the derivative streams the formal
derivative and the integral the integral with constant zero; the derivative of the integral
streams `a` itself; the integral of the derivative streams `a` with its constant term replaced by
zero (for a non-empty `a`, `a` with its first coefficient zero); every pipeline starts
from an input that has handed out nothing. A finite `a` of length `m` has a derivative of
`m - 1` coefficients (none when `m ≤ 1`) and an integral of `m + 1`. -/
theorem derivative_integral_inverse {input : Feed σ ℚ} {a : Seq ℚ} {R : σ → ℕ → Prop}
    (h : input.Streams a R) :
    (Derivative.feed input).Streams (derivativeSeq a) (DerivativeAt a R) ∧
    (Integral.feed input).Streams (integralSeq a) (IntegralAt R) ∧
    (Derivative.feed (Integral.feed input)).Streams a (DerivativeAt (integralSeq a) (IntegralAt R)) ∧
    (Integral.feed (Derivative.feed input)).Streams (.cons 0 a.tail) (IntegralAt (DerivativeAt a R)) ∧
    (∀ s, R s 0 → DerivativeAt a R (0, s) 0 ∧ IntegralAt R (0, s) 0 ∧
      DerivativeAt (integralSeq a) (IntegralAt R) (0, 0, s) 0 ∧
      IntegralAt (DerivativeAt a R) (0, 0, s) 0) ∧
    (∀ n, (Seq.cons 0 a.tail).get? n = if n = 0 then some 0 else a.get? n) ∧
    ∀ m : ℕ, a.length' = m → (∀ n, ((derivativeSeq a).get? n).isSome ↔ n + 1 < m) ∧
      ∀ n, ((integralSeq a).get? n).isSome ↔ n < m + 1 := by
  have hint := Integral.streams h
  have hder := Derivative.streams h
  have hdi := Derivative.streams hint
  have hid := Integral.streams hder
  rw [derivativeSeq_integralSeq] at hdi
  rw [integralSeq_derivativeSeq] at hid
  refine ⟨hder, hint, hdi, hid, fun s hs => ?_, get?_cons_zero_tail a, fun m hm =>
    ⟨isSome_derivativeSeq_iff hm, isSome_integralSeq_iff hm⟩⟩
  exact ⟨Derivative.derivativeAt_initial hs, Integral.integralAt_initial hs,
    Derivative.derivativeAt_initial (Integral.integralAt_initial hs),
    Integral.integralAt_initial (Derivative.derivativeAt_initial hs)⟩

/-- Over the list `1, 2, 3`. -/
theorem derivative_integral_inverse_list :
    Feed.ofList.Streams (.ofList [1, 2, 3]) (fun s k => s = [(1 : ℚ), 2, 3].drop k) ∧
    (Derivative.feed Feed.ofList).Streams (derivativeSeq (.ofList [1, 2, 3]))
        (DerivativeAt (.ofList [1, 2, 3]) fun s k => s = [(1 : ℚ), 2, 3].drop k) ∧
    (Integral.feed Feed.ofList).Streams (integralSeq (.ofList [1, 2, 3]))
        (IntegralAt fun s k => s = [(1 : ℚ), 2, 3].drop k) ∧
    (Derivative.feed (Integral.feed Feed.ofList)).Streams (.ofList [1, 2, 3])
        (DerivativeAt (integralSeq (.ofList [1, 2, 3])) (IntegralAt fun s k => s = [(1 : ℚ), 2, 3].drop k)) ∧
    (Integral.feed (Derivative.feed Feed.ofList)).Streams (.cons 0 (Seq.ofList [(1 : ℚ), 2, 3]).tail)
        (IntegralAt (DerivativeAt (.ofList [1, 2, 3]) fun s k => s = [(1 : ℚ), 2, 3].drop k)) ∧
    (∀ s : List ℚ, s = [(1 : ℚ), 2, 3].drop 0 →
      DerivativeAt (.ofList [1, 2, 3]) (fun s k => s = [(1 : ℚ), 2, 3].drop k) (0, s) 0 ∧
      IntegralAt (fun s k => s = [(1 : ℚ), 2, 3].drop k) (0, s) 0 ∧
      DerivativeAt (integralSeq (.ofList [1, 2, 3])) (IntegralAt fun s k => s = [(1 : ℚ), 2, 3].drop k)
        (0, 0, s) 0 ∧
      IntegralAt (DerivativeAt (.ofList [1, 2, 3]) fun s k => s = [(1 : ℚ), 2, 3].drop k) (0, 0, s) 0) ∧
    (∀ n, (Seq.cons 0 (Seq.ofList [(1 : ℚ), 2, 3]).tail).get? n =
        if n = 0 then some 0 else (Seq.ofList [(1 : ℚ), 2, 3]).get? n) ∧
    ∀ m : ℕ, (Seq.ofList [(1 : ℚ), 2, 3]).length' = m →
      (∀ n, ((derivativeSeq (.ofList [1, 2, 3])).get? n).isSome ↔ n + 1 < m) ∧
      ∀ n, ((integralSeq (.ofList [1, 2, 3])).get? n).isSome ↔ n < m + 1 := by
  have h := Feed.yields_ofList.streams [(1 : ℚ), 2, 3]
  exact ⟨h, derivative_integral_inverse h⟩

end LazySeq
