import Mathlib
import LazySeq.PowerSeries.Ops
import LazySeq.Proofs.Stream.Sequences

/-!
# Series operations in exact arithmetic

The series operations are written over any `Coefficient` type. On the rationals every operation
is exact, a running sum starts from zero and the fused multiply-add is `a * b + c`: this is the
reading under which the operations compute power series, and the statements about them are made
in it.

A coefficient sequence is a `Stream'.Seq ℚ`, finite for a polynomial and infinite for a series;
`coeffAt a i` is its `i`-th coefficient, zero past its end. Two facts carry the proofs about the
operations: the product coefficient `convolveAt` computes from two arrays is the sum over the
antidiagonal, a coefficient missing from an array counting as zero (`convolveAt_eq_sum`), and
`Product.readAt` over an input that streams a sequence extends the coefficients it has read by
the next one, if there is one.
-/

namespace LazySeq

open Finset

/-- Exact arithmetic: the rationals. -/
instance exactCoefficient : Coefficient ℚ where
  zero := 0
  one := 1
  sumStart := 0
  ofIndex n := n
  mulAdd a b c := a * b + c

namespace Coefficient

@[simp] theorem zero_exact : (zero : ℚ) = 0 := rfl

@[simp] theorem one_exact : (one : ℚ) = 1 := rfl

@[simp] theorem ofIndex_exact (n : ℕ) : (ofIndex n : ℚ) = n := rfl

@[simp] theorem add_exact (a b : ℚ) :
    @HAdd.hAdd ℚ ℚ ℚ (@instHAdd ℚ Coefficient.toAdd) a b = a + b := rfl

@[simp] theorem sub_exact (a b : ℚ) :
    @HSub.hSub ℚ ℚ ℚ (@instHSub ℚ Coefficient.toSub) a b = a - b := rfl

@[simp] theorem mul_exact (a b : ℚ) :
    @HMul.hMul ℚ ℚ ℚ (@instHMul ℚ Coefficient.toMul) a b = a * b := rfl

@[simp] theorem div_exact (a b : ℚ) :
    @HDiv.hDiv ℚ ℚ ℚ (@instHDiv ℚ Coefficient.toDiv) a b = a / b := rfl

@[simp] theorem neg_exact (a : ℚ) : @Neg.neg ℚ Coefficient.toNeg a = -a := rfl

/-- A running sum of rationals is the sum. -/
@[simp] theorem sum_exact (xs : List ℚ) : sum xs = xs.sum := by
  rw [sum, List.sum_eq_foldl]
  rfl

/-- A sum over a run of consecutive indices, as the operations write it, is a sum over an
interval. -/
theorem sum_map_range' (f : ℕ → ℚ) (start k : ℕ) :
    ((List.range' start k).map f).sum = ∑ i ∈ Ico start (start + k), f i := by
  rw [Finset.sum_Ico_eq_sum_range, Nat.add_sub_cancel_left, List.range'_eq_map_range,
    List.map_map, Finset.sum_eq_multiset_sum, Finset.range_val, Multiset.range, Multiset.map_coe,
    Multiset.sum_coe]
  rfl

/-- The product coefficient of two arrays of known coefficients is the sum over the
antidiagonal, a coefficient an array does not hold counting as zero. -/
theorem convolveAt_eq_sum (l r : Array ℚ) (n : ℕ) :
    convolveAt l r n = ∑ p ∈ antidiagonal n, l.getD p.1 0 * r.getD p.2 0 := by
  rw [Finset.Nat.sum_antidiagonal_eq_sum_range_succ (fun i j => l.getD i 0 * r.getD j 0)]
  -- the terms outside the window `convolveAt` sums over vanish
  have hleft : ∀ i, l.size ≤ i → l.getD i 0 = 0 := fun i hi => by
    simp [Array.getD_eq_getD_getElem?, Array.getElem?_eq_none hi]
  have hright : ∀ i ≤ n, n + 1 - r.size > i → r.getD (n - i) 0 = 0 := fun i hi hlt => by
    have : r.size ≤ n - i := by omega
    simp [Array.getD_eq_getD_getElem?, Array.getElem?_eq_none this]
  unfold convolveAt
  dsimp only
  split
  · next hempty =>
    symm
    refine Finset.sum_eq_zero fun i hi => ?_
    have hi : i ≤ n := Nat.lt_succ_iff.1 (Finset.mem_range.1 hi)
    rcases hempty with hzero | hgap
    · simp [hleft i (by omega)]
    · rcases Nat.lt_or_ge i (n + 1 - r.size) with hlt | hge
      · simp [hright i hi hlt]
      · simp [hleft i (by omega)]
  · next hwindow =>
    simp only [sum_exact, zero_exact, mul_exact, sum_map_range']
    apply Finset.sum_subset
    · intro i hi
      simp only [Finset.mem_Ico] at hi
      simp only [Finset.mem_range]
      omega
    · intro i hi hout
      have hi : i ≤ n := Nat.lt_succ_iff.1 (Finset.mem_range.1 hi)
      simp only [Finset.mem_Ico, not_and_or, not_le, not_lt] at hout
      rcases hout with hlt | hge
      · simp [hright i hi (by omega)]
      · simp [hleft i (by omega)]

end Coefficient

/-! ## Coefficient sequences -/

/-- The `i`-th coefficient of a sequence, zero past its end. -/
def coeffAt (a : Stream'.Seq ℚ) (i : ℕ) : ℚ := (a.get? i).getD 0

/-- A coefficient sequence as a power series. -/
def toPowerSeries (a : Stream'.Seq ℚ) : PowerSeries ℚ := PowerSeries.mk (coeffAt a)

@[simp] theorem coeff_toPowerSeries (a : Stream'.Seq ℚ) (n : ℕ) :
    PowerSeries.coeff n (toPowerSeries a) = coeffAt a n :=
  PowerSeries.coeff_mk n _

/-- Below `m`, the first `m` coefficients held in an array give the coefficients. -/
theorem getD_take {a : Stream'.Seq ℚ} {i m : ℕ} (hi : i < m) :
    (a.take m).toArray.getD i 0 = coeffAt a i := by
  simp [Array.getD_eq_getD_getElem?, Stream'.Seq.getElem?_take, hi, coeffAt]

/-! ## Reading one coefficient -/

namespace Feed.Streams

variable {σ : Type} {input : Feed σ ℚ} {xs : Stream'.Seq ℚ} {R : σ → ℕ → Prop} {s : σ}
  {j n : ℕ} {known : Array ℚ}

/-- Reading coefficient `n` when fewer are known pulls the next one and keeps it. -/
theorem readAt_some (h : input.Streams xs R) (hs : R s j) (hk : known.size ≤ n) {x : ℚ}
    (hx : xs.get? j = some x) :
    ∃ s', Product.readAt input n known s = (.ok (known.push x), s') ∧ R s' (j + 1) := by
  obtain ⟨s', hp, hs'⟩ := h.pull_some hs hx
  exact ⟨s', by simp [Product.readAt, hk, hp], hs'⟩

/-- Reading coefficient `n` past the end of the input keeps what is known. -/
theorem readAt_none (h : input.Streams xs R) (hs : R s j) (hk : known.size ≤ n)
    (hx : xs.get? j = none) :
    ∃ s', Product.readAt input n known s = (.ok known, s') ∧ R s' j := by
  obtain ⟨s', hp, hs'⟩ := h.pull_none hs hx
  exact ⟨s', by simp [Product.readAt, hk, hp], hs'⟩

/-- With the first `n` coefficients known and handed out, reading coefficient `n` leaves the
first `n + 1` known and handed out. -/
theorem readAt_take (h : input.Streams xs R) (hs : R s (xs.take n).length) :
    ∃ s', Product.readAt input n (xs.take n).toArray s = (.ok (xs.take (n + 1)).toArray, s') ∧
      R s' (xs.take (n + 1)).length := by
  have hk : (xs.take n).toArray.size ≤ n := by simpa using Stream'.Seq.length_take_le
  rw [seq_take_succ]
  cases hx : xs.get? n with
  | none =>
    obtain ⟨s', hr, hs'⟩ := h.readAt_none hs hk (by rwa [get?_length_take])
    exact ⟨s', by simpa using hr, by simpa using hs'⟩
  | some x =>
    obtain ⟨s', hr, hs'⟩ := h.readAt_some hs hk (by rwa [get?_length_take])
    exact ⟨s', by simpa using hr, by simpa using hs'⟩

/-- An operation that read the first coefficient when it was built knows `max n 1` before output
`n`, and `n + 1` after: at `n = 0` it reads nothing. -/
theorem readAt_take_max (h : input.Streams xs R) (h0 : (xs.get? 0).isSome)
    (hs : R s (xs.take (max n 1)).length) :
    ∃ s', Product.readAt input n (xs.take (max n 1)).toArray s =
        (.ok (xs.take (n + 1)).toArray, s') ∧ R s' (xs.take (n + 1)).length := by
  cases n with
  | zero =>
    refine ⟨s, ?_, hs⟩
    simp [Product.readAt, length_take_one h0]
  | succ n =>
    rw [Nat.max_eq_left (Nat.succ_pos n)] at hs ⊢
    exact h.readAt_take hs

end Feed.Streams

end LazySeq
