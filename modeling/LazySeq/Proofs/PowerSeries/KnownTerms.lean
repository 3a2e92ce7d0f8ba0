import Mathlib
import LazySeq.PowerSeries.Coefficient

/-!
# Which terms a product coefficient sums

The `n`-th coefficient of a product is the Cauchy sum of the terms `l[i] · r[n - i]`,
`i = 0, …, n`. From two lists of known coefficients, `convolveAt l r n` sums the terms over a
window of indices it computes from the sizes alone: from `n + 1 - |r|` (cut off at zero), the first
`i` for which `r` holds the coefficient `n - i`, to `min n (|l| - 1)`, the last `i` for which `l`
holds the coefficient `i`; and nothing when `l` is empty or the window is. That window is exactly
the set of `i ≤ n` for which both coefficients exist (`filter_range_eq_window`).

`knownTerms l r n` lists the terms of the Cauchy sum with checked reads: a term is kept when both
of its reads find a coefficient, and left out otherwise.

**Main statement.** `convolveAt_sums_known_terms`: in every arithmetic, `convolveAt` is zero when no
term has both coefficients, and otherwise the running sum of exactly those terms, in increasing
`i`. The arithmetic is arbitrary, so each product it sums is a product of two coefficients that
exist: no read falls outside an array. Read exactly, this is the sum over the `i ≤ n` with
`i < |l|` and `n - i < |r|`, and zero when there is none.
-/

namespace LazySeq

namespace Coefficient

variable {α : Type} [Coefficient α]

/-- The terms `l[i] · r[n - i]`, `i = 0, …, n`, of the Cauchy sum whose two coefficients are both
known, in increasing `i`. -/
def knownTerms (l r : Array α) (n : ℕ) : List α :=
  (List.range (n + 1)).filterMap fun i => l[i]?.bind fun a => r[n - i]?.map (a * ·)

/-- Checked reads leave out exactly the terms whose indices a filter on the bounds leaves out, and
the terms they keep are the products that reads with a default compute. -/
theorem filterMap_products (l r : Array α) (n : ℕ) (is : List ℕ) :
    is.filterMap (fun i => l[i]?.bind fun a => r[n - i]?.map (a * ·)) =
      (is.filter fun i => i < l.size ∧ n - i < r.size).map
        fun i => l.getD i zero * r.getD (n - i) zero := by
  induction is with
  | nil => rfl
  | cons i is ih =>
    by_cases hi : i < l.size ∧ n - i < r.size
    · simp [hi, ih, Array.getD_eq_getD_getElem?]
    · rw [List.filterMap_cons, List.filter_cons, if_neg (by simpa using hi), ← ih]
      -- one of the two reads falls outside its array
      rcases not_and_or.1 hi with hl | hr
      · rw [Array.getElem?_eq_none (Nat.le_of_not_lt hl), Option.bind_none]
      · rw [Array.getElem?_eq_none (Nat.le_of_not_lt hr)]
        cases l[i]? <;> rfl

end Coefficient

/-- The `i ≤ n` for which a list of `ls` coefficients holds `i` and one of `rs` holds `n - i` are
the window from `n + 1 - rs` to `min n (ls - 1)`, and none when `ls = 0` or the window is
empty. -/
theorem filter_range_eq_window (ls rs n : ℕ) :
    (List.range (n + 1)).filter (fun i => i < ls ∧ n - i < rs) =
      if ls = 0 ∨ n + 1 - rs > min n (ls - 1) then []
      else List.range' (n + 1 - rs) (min n (ls - 1) + 1 - (n + 1 - rs)) := by
  split
  · next hempty =>
    rw [List.filter_eq_nil_iff]
    intro i hi
    simp only [List.mem_range] at hi
    simp only [decide_eq_true_eq, not_and_or, not_lt]
    omega
  · next hwindow =>
    -- both lists increase, so they are equal once they have the same members
    refine List.Pairwise.eq_of_mem_iff (List.pairwise_lt_range.filter _)
      (List.pairwise_lt_range' 1) fun i => ?_
    simp only [List.mem_filter, List.mem_range, decide_eq_true_eq, List.mem_range'_1]
    omega

namespace Coefficient

variable {α : Type} [Coefficient α]

/-- **A product coefficient sums exactly the terms whose coefficients exist.** In every
arithmetic, `convolveAt l r n` is zero when no `i ≤ n` has both `l[i]` and `r[n - i]`, and otherwise
the running sum of the terms `l[i] · r[n - i]` over exactly those `i`, in increasing order; each
term it sums is a product of two coefficients that the arrays hold. -/
theorem convolveAt_sums_known_terms (l r : Array α) (n : ℕ) :
    convolveAt l r n = if knownTerms l r n = [] then zero else sum (knownTerms l r n) := by
  rw [knownTerms, filterMap_products, filter_range_eq_window]
  unfold convolveAt
  dsimp only
  split
  · simp
  · next hwindow =>
    rw [if_neg]
    simp only [List.map_eq_nil_iff, List.range'_eq_nil_iff]
    omega

/-- The last coefficient of `(1 + 2x)(3 + 4x)` has one term, `2 · 4`; past it there is none. -/
example : convolveAt #[(1 : Float), 2] #[3, 4] 2 = 8 ∧ convolveAt #[(1 : Float), 2] #[3, 4] 3 = 0 := by
  constructor <;> rfl

end Coefficient

end LazySeq
