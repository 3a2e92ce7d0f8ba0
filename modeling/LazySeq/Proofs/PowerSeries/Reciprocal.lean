import Mathlib
import LazySeq.Proofs.PowerSeries.Product
import LazySeq.Pipeline.Build

/-!
# The reciprocal series and division

`inverseCoeff a n` is coefficient `n` of `1 / a`, the inverse of `a` as a power series over the
rationals, for `a` with a nonzero first coefficient. Its coefficients solve
`∑_{i ≤ n} aᵢ r_{n-i} = [n = 0]` (`sum_mul_inverseCoeff`), so each is determined by the earlier
ones (`inverseCoeff_zero`, `inverseCoeff_succ`): that recurrence is what the reciprocal
computes.

`ReciprocalAt a R` is what the reciprocal holds after `n` outputs: the first `max n 1`
coefficients of `a`, the first having been read when it was built, and its outputs so far. It
answers every `hasNext` with true, and `tryNext` with coefficient `n` of `1 / a`
(`Reciprocal.tryNext_after`).

Dividing `p` by `a` multiplies `p` by the reciprocal of `a`. `Feed.StreamsBoth.reciprocal` puts
the reciprocal over the second of two inputs that share a state, so that the product theorem
applies to the pair; `DivisionAt` is what the division holds after `n` outputs.

**Main statement.** `inverse_streams_reciprocal`: for `a` with a nonzero first coefficient, the
reciprocal never ends and inverts `a`, a series times its reciprocal streams `1, 0, 0, …`, and
the quotient `q` of any series `p` with a first coefficient satisfies `∑ᵢ qᵢ a_{n-i} = pₙ`.
-/

namespace LazySeq

open Finset Coefficient

variable {σ : Type}

/-! ## The coefficients of `1 / a` -/

/-- Coefficient `n` of the reciprocal `1 / a`. -/
noncomputable def inverseCoeff (a : Stream'.Seq ℚ) (n : ℕ) : ℚ :=
  PowerSeries.coeff n (toPowerSeries a)⁻¹

section Inverse

variable {a : Stream'.Seq ℚ} {a₀ : ℚ}

/-- The reciprocal's coefficients, as a sequence that never ends, are the inverse series. -/
theorem toPowerSeries_inverse (a : Stream'.Seq ℚ) :
    toPowerSeries (.ofStream (inverseCoeff a)) = (toPowerSeries a)⁻¹ := by
  ext n
  rw [coeff_toPowerSeries]
  rfl

theorem constantCoeff_toPowerSeries (h0 : a.get? 0 = some a₀) :
    PowerSeries.constantCoeff (toPowerSeries a) = a₀ := by
  rw [← PowerSeries.coeff_zero_eq_constantCoeff_apply, coeff_toPowerSeries, coeffAt, h0]
  rfl

/-- **The reciprocal inverts `a`**: `∑_{i ≤ n} aᵢ r_{n-i}` is one at `n = 0` and zero after. -/
theorem sum_mul_inverseCoeff (h0 : a.get? 0 = some a₀) (hne : a₀ ≠ 0) (n : ℕ) :
    ∑ i ∈ range (n + 1), coeffAt a i * inverseCoeff a (n - i) = if n = 0 then 1 else 0 := by
  have hone := congrArg (PowerSeries.coeff n) (PowerSeries.mul_inv_cancel (toPowerSeries a)
    (by rwa [constantCoeff_toPowerSeries h0]))
  rw [PowerSeries.coeff_mul, PowerSeries.coeff_one,
    Finset.Nat.sum_antidiagonal_eq_sum_range_succ
      (fun i j => PowerSeries.coeff i (toPowerSeries a) * PowerSeries.coeff j (toPowerSeries a)⁻¹)
      n] at hone
  simpa [inverseCoeff] using hone

theorem inverseCoeff_zero (h0 : a.get? 0 = some a₀) (hne : a₀ ≠ 0) :
    inverseCoeff a 0 = 1 / a₀ := by
  have h := sum_mul_inverseCoeff h0 hne 0
  simp [coeffAt, h0] at h
  rw [eq_div_iff hne, mul_comm, h]

/-- Coefficient `n + 1` of `1 / a` from the earlier ones: the first term of the sum at `n + 1`
is `a₀ r_{n+1}`, and the rest cancel it. -/
theorem inverseCoeff_succ (h0 : a.get? 0 = some a₀) (hne : a₀ ≠ 0) (n : ℕ) :
    inverseCoeff a (n + 1) =
      -(∑ i ∈ Ico 1 (n + 2), coeffAt a i * inverseCoeff a (n + 1 - i)) / a₀ := by
  have h := sum_mul_inverseCoeff h0 hne (n + 1)
  rw [Finset.sum_range_succ', if_neg (Nat.succ_ne_zero n)] at h
  have hrest : ∑ i ∈ Ico 1 (n + 2), coeffAt a i * inverseCoeff a (n + 1 - i) =
      ∑ i ∈ range (n + 1), coeffAt a (i + 1) * inverseCoeff a (n + 1 - (i + 1)) := by
    rw [Finset.sum_Ico_eq_sum_range]
    exact Finset.sum_congr rfl fun i _ => by rw [Nat.add_comm 1 i]
  have ha₀ : coeffAt a 0 = a₀ := by simp [coeffAt, h0]
  rw [hrest, eq_div_iff hne]
  rw [ha₀, Nat.sub_zero] at h
  linarith

end Inverse

/-! ## One output of the reciprocal -/

/-- The reciprocal after `n` outputs: it has read the first `max n 1` coefficients of `a`, the
first when it was built, and kept its outputs, the first `n` coefficients of `1 / a`; `R` holds
with the input having handed out exactly the coefficients read. -/
def ReciprocalAt (a : Stream'.Seq ℚ) (R : σ → ℕ → Prop) (p : Reciprocal ℚ × σ) (n : ℕ) : Prop :=
  p.1 = ⟨(a.take (max n 1)).toArray, ((List.range n).map (inverseCoeff a)).toArray⟩ ∧
    R p.2 (a.take (max n 1)).length

/-- A sum of the values present in a list of options counts the missing ones as zero. -/
theorem sum_filterMap (f : ℕ → Option ℚ) (l : List ℕ) :
    (l.filterMap f).sum = (l.map fun i => (f i).getD 0).sum := by
  induction l with
  | nil => rfl
  | cons i l ih => cases h : f i <;> simp [h, ih]

section Step

variable {input : Feed σ ℚ} {a : Stream'.Seq ℚ} {R : σ → ℕ → Prop} {s : σ} {n : ℕ} {a₀ : ℚ}

/-- The terms the reciprocal sums for output `n + 1`, over the coefficients it has read then,
are `aᵢ r_{n+1-i}` for `1 ≤ i ≤ n + 1`, a missing coefficient giving no term. -/
theorem sum_reciprocal_terms (a : Stream'.Seq ℚ) (n : ℕ) :
    sum ((List.range' 1 (n + 1)).filterMap fun i => (a.take (n + 2)).toArray[i]?.map fun x =>
        x * ((List.range (n + 1)).map (inverseCoeff a)).toArray.getD (n + 1 - i) zero) =
      ∑ i ∈ Ico 1 (n + 2), coeffAt a i * inverseCoeff a (n + 1 - i) := by
  rw [sum_exact, sum_filterMap, sum_map_range', Nat.add_comm 1 (n + 1)]
  refine Finset.sum_congr rfl fun i hi => ?_
  rw [Finset.mem_Ico] at hi
  have hr : ((List.range (n + 1)).map (inverseCoeff a)).toArray.getD (n + 1 - i) zero =
      inverseCoeff a (n + 1 - i) := by
    simp [Array.getD_eq_getD_getElem?, List.getElem?_range (show n + 1 - i < n + 1 by omega)]
  rw [hr, List.getElem?_toArray, Stream'.Seq.getElem?_take, if_pos (by omega)]
  cases hx : a.get? i <;> simp [coeffAt, hx]

/-- Output `n` of the reciprocal is coefficient `n` of `1 / a`; after the first it reads
coefficient `n` of `a`, if there is one. -/
theorem Reciprocal.tryNext_after (h : input.Streams a R) (h0 : a.get? 0 = some a₀) (hne : a₀ ≠ 0)
    (hs : R s (a.take (max n 1)).length) :
    ∃ s', Reciprocal.tryNext input
        ⟨(a.take (max n 1)).toArray, ((List.range n).map (inverseCoeff a)).toArray⟩ s =
      (.ok (inverseCoeff a n), ⟨(a.take (max (n + 1) 1)).toArray,
        ((List.range (n + 1)).map (inverseCoeff a)).toArray⟩, s') ∧
      R s' (a.take (max (n + 1) 1)).length := by
  have hlead : ∀ m, 0 < m → (a.take m).toArray.getD 0 zero = a₀ := fun m hm => by
    rw [Coefficient.zero_exact, getD_take hm, coeffAt, h0]
    rfl
  cases n with
  | zero =>
    refine ⟨s, ?_, hs⟩
    simp [Reciprocal.tryNext, inverseCoeff_zero h0 hne, h0]
  | succ n =>
    -- the coefficient of `a` at `n + 1` is read before the sum is taken
    have hm : max (n + 1) 1 = n + 1 := by omega
    have hm' : max (n + 1 + 1) 1 = n + 1 + 1 := by omega
    rw [hm] at hs
    obtain ⟨s', hr, hs'⟩ := h.readAt_take hs
    have hsize : ((List.range (n + 1)).map (inverseCoeff a)).toArray.size = n + 1 := by simp
    have hpush : ((List.range (n + 1)).map (inverseCoeff a)).toArray.push (inverseCoeff a (n + 1)) =
        ((List.range (n + 1 + 1)).map (inverseCoeff a)).toArray := by simp [List.range_succ]
    refine ⟨s', ?_, by rwa [hm']⟩
    rw [hm, hm']
    simp only [Reciprocal.tryNext, hsize, Nat.add_one_ne_zero, if_false, hr,
      hlead (n + 1) (Nat.succ_pos n), sum_reciprocal_terms, Coefficient.neg_exact,
      Coefficient.div_exact, ← inverseCoeff_succ h0 hne, hpush]

/-- **The reciprocal streams `1 / a`, without end.** -/
theorem Reciprocal.streams_inverse (h : input.Streams a R) (h0 : a.get? 0 = some a₀)
    (hne : a₀ ≠ 0) : (Reciprocal.feed input).Streams (.ofStream (inverseCoeff a)) (ReciprocalAt a R)
    where
  hasNext := by
    rintro ⟨st, s⟩ n hr
    exact ⟨(st, s), rfl, hr⟩
  tryNext := by
    rintro ⟨st, s⟩ n c ⟨rfl, hs⟩ hc
    obtain rfl : inverseCoeff a n = c := Option.some.inj hc
    obtain ⟨s', ht, hs'⟩ := Reciprocal.tryNext_after h h0 hne hs
    exact ⟨(_, s'), by simp [Reciprocal.feed, ht], rfl, hs'⟩

/-- The reciprocal over the second of two inputs sharing a state: the first reads the shared
state as before, and the pair streams the first input's sequence and `1 / a`. -/
theorem Feed.StreamsBoth.reciprocal {f g : Feed σ ℚ} {p : Stream'.Seq ℚ}
    {R : σ → ℕ → ℕ → Prop} (h : Feed.StreamsBoth f g p a R) (h0 : a.get? 0 = some a₀)
    (hne : a₀ ≠ 0) :
    Feed.StreamsBoth (f.focus Prod.snd fun q s => (q.1, s)) (Reciprocal.feed g) p
      (.ofStream (inverseCoeff a)) fun q j k => ReciprocalAt a (fun s k' => R s j k') q k where
  left k := {
    hasNext := by
      rintro ⟨st, s⟩ j ⟨hst, hs⟩
      obtain ⟨s', hh, hs'⟩ := (h.left _).hasNext hs
      exact ⟨(st, s'), by simp [Feed.focus, hh], hst, hs'⟩
    tryNext := by
      rintro ⟨st, s⟩ j x ⟨hst, hs⟩ hx
      obtain ⟨s', ht, hs'⟩ := (h.left _).tryNext hs hx
      exact ⟨(st, s'), by simp [Feed.focus, ht], hst, hs'⟩ }
  right j := Reciprocal.streams_inverse (h.right j) h0 hne

end Step

/-! ## Division -/

/-- A division of `p` by `a` after `n` outputs: the product of `p` and the reciprocal of `a`,
read through two inputs that share a state. -/
def DivisionAt (p a : Stream'.Seq ℚ) (R : σ → ℕ → ℕ → Prop) :
    Product ℚ × Reciprocal ℚ × σ → ℕ → Prop :=
  ProductAt p (.ofStream (inverseCoeff a)) fun q j k => ReciprocalAt a (fun s k' => R s j k') q k

theorem divisionAt_initial {p a : Stream'.Seq ℚ} {R : σ → ℕ → ℕ → Prop} {a₀ : ℚ} {s : σ}
    (h0 : a.get? 0 = some a₀) (hs : R s 0 1) :
    DivisionAt p a R (Product.initial, Reciprocal.start a₀, s) 0 := by
  have htake : a.take 1 = [a₀] := by simp [seq_take_succ, h0]
  refine ⟨rfl, ?_, ?_⟩
  · simp [Reciprocal.start, htake]
  · simpa [htake] using hs

/-- The quotient times the divisor is the dividend: `∑ᵢ qᵢ a_{n-i} = pₙ`. -/
theorem sum_quotient_mul {p a : Stream'.Seq ℚ} {a₀ : ℚ} (h0 : a.get? 0 = some a₀) (hne : a₀ ≠ 0)
    (n : ℕ) :
    ∑ i ∈ range (n + 1), coeffAt (cauchy p (.ofStream (inverseCoeff a))) i * coeffAt a (n - i) =
      coeffAt p n := by
  have hinv : (toPowerSeries a)⁻¹ * toPowerSeries a = 1 :=
    PowerSeries.inv_mul_cancel _ (by rwa [constantCoeff_toPowerSeries h0])
  have hq := congrArg (PowerSeries.coeff n)
    (show toPowerSeries p * (toPowerSeries a)⁻¹ * toPowerSeries a = toPowerSeries p by
      rw [mul_assoc, hinv, mul_one])
  rw [PowerSeries.coeff_mul, Finset.Nat.sum_antidiagonal_eq_sum_range_succ
    (fun i j => PowerSeries.coeff i (toPowerSeries p * (toPowerSeries a)⁻¹) *
      PowerSeries.coeff j (toPowerSeries a)) n] at hq
  simpa [coeffAt_cauchy, toPowerSeries_inverse] using hq

/-- A series times its reciprocal is `1, 0, 0, …`. -/
theorem cauchy_inverse_self {a : Stream'.Seq ℚ} {a₀ : ℚ} (h0 : a.get? 0 = some a₀)
    (hne : a₀ ≠ 0) :
    cauchy a (.ofStream (inverseCoeff a)) = .ofStream fun n => if n = 0 then 1 else 0 := by
  apply Stream'.Seq.ext
  intro n
  have hpairs : PairsTo a (.ofStream (inverseCoeff a)) n := ⟨(0, n), by simp, by simp [h0], rfl⟩
  have hcoeff := coeffAt_cauchy a (.ofStream (inverseCoeff a)) n
  rw [toPowerSeries_inverse, PowerSeries.mul_inv_cancel _ (by
    rwa [constantCoeff_toPowerSeries h0]), PowerSeries.coeff_one] at hcoeff
  rw [coeffAt, cauchy_get?, if_pos hpairs, Option.getD_some] at hcoeff
  rw [cauchy_get?, if_pos hpairs, hcoeff]
  rfl

/-- **The reciprocal inverts, and division undoes multiplication.** For `a` with a nonzero
first coefficient, `a₀` having been read when the reciprocal was built: the reciprocal streams
`1 / a` from its start, so it never ends, and its outputs `r` satisfy
`∑_{i ≤ n} aᵢ r_{n-i} = [n = 0]`. A product of `a` and the reciprocal of `a`, over any two inputs
streaming `a`, streams `1, 0, 0, …` from its start. Dividing any `p` with a first coefficient by
`a` streams a quotient `q` from its start, and `∑_{i ≤ n} qᵢ a_{n-i} = pₙ` for every `n`. -/
theorem inverse_streams_reciprocal {input : Feed σ ℚ} {a : Stream'.Seq ℚ} {R : σ → ℕ → Prop}
    {a₀ : ℚ} (h : input.Streams a R) (h0 : a.get? 0 = some a₀) (hne : a₀ ≠ 0)
    {τ : Type} {f g : Feed τ ℚ} {Rs : τ → ℕ → ℕ → Prop} (hs : Feed.StreamsBoth f g a a Rs)
    {υ : Type} {f' g' : Feed υ ℚ} {p : Stream'.Seq ℚ} {Rq : υ → ℕ → ℕ → Prop}
    (hq : Feed.StreamsBoth f' g' p a Rq) (hp : (p.get? 0).isSome) :
    ((Reciprocal.feed input).Streams (.ofStream (inverseCoeff a)) (ReciprocalAt a R) ∧
      (∀ s, R s 1 → ReciprocalAt a R (Reciprocal.start a₀, s) 0) ∧
      ∀ n, ∑ i ∈ range (n + 1), coeffAt a i * inverseCoeff a (n - i) = if n = 0 then 1 else 0) ∧
    ((Product.feed (f.focus Prod.snd fun q s => (q.1, s)) (Reciprocal.feed g)).Streams
        (.ofStream fun n => if n = 0 then 1 else 0) (DivisionAt a a Rs) ∧
      ∀ s, Rs s 0 1 → DivisionAt a a Rs (Product.initial, Reciprocal.start a₀, s) 0) ∧
    ((Product.feed (f'.focus Prod.snd fun q s => (q.1, s)) (Reciprocal.feed g')).Streams
        (cauchy p (.ofStream (inverseCoeff a))) (DivisionAt p a Rq) ∧
      (∀ s, Rq s 0 1 → DivisionAt p a Rq (Product.initial, Reciprocal.start a₀, s) 0) ∧
      ∀ n, ∑ i ∈ range (n + 1),
        coeffAt (cauchy p (.ofStream (inverseCoeff a))) i * coeffAt a (n - i) = coeffAt p n) := by
  have hstart : ∀ s, R s 1 → ReciprocalAt a R (Reciprocal.start a₀, s) 0 := fun s hs => by
    have htake : a.take 1 = [a₀] := by simp [seq_take_succ, h0]
    exact ⟨by simp [Reciprocal.start, htake], by simpa [htake] using hs⟩
  have hself := Product.streams_cauchy (hs.reciprocal h0 hne) (by simp [h0]) rfl
  rw [cauchy_inverse_self h0 hne] at hself
  exact ⟨⟨Reciprocal.streams_inverse h h0 hne, hstart, sum_mul_inverseCoeff h0 hne⟩,
    ⟨hself, fun s hs => divisionAt_initial h0 hs⟩,
    ⟨Product.streams_cauchy (hq.reciprocal h0 hne) hp rfl, fun s hs => divisionAt_initial h0 hs,
      sum_quotient_mul h0 hne⟩⟩

/-- `1 / (2 - x)` over a list, `(2 - x) · 1 / (2 - x)` over two lists, and
`(2 + x - x²) / (2 - x)` over two lists. -/
theorem inverse_streams_reciprocal_lists :
    Feed.ofList.Streams (.ofList [2, -1]) (fun s k => s = [(2 : ℚ), -1].drop k) ∧
      (Stream'.Seq.ofList [(2 : ℚ), -1]).get? 0 = some 2 ∧ (2 : ℚ) ≠ 0 ∧
      Feed.StreamsBoth (Feed.ofList.focus Prod.fst fun p s => (s, p.2))
        (Feed.ofList.focus Prod.snd fun p s => (p.1, s)) (.ofList [2, -1]) (.ofList [2, -1])
        (fun p j k => p.1 = [(2 : ℚ), -1].drop j ∧ p.2 = [(2 : ℚ), -1].drop k) ∧
      Feed.StreamsBoth (Feed.ofList.focus Prod.fst fun p s => (s, p.2))
        (Feed.ofList.focus Prod.snd fun p s => (p.1, s)) (.ofList [2, 1, -1]) (.ofList [2, -1])
        (fun p j k => p.1 = [(2 : ℚ), 1, -1].drop j ∧ p.2 = [(2 : ℚ), -1].drop k) ∧
      ((Stream'.Seq.ofList [(2 : ℚ), 1, -1]).get? 0).isSome ∧
      ((Reciprocal.feed Feed.ofList).Streams (.ofStream (inverseCoeff (.ofList [2, -1])))
          (ReciprocalAt (.ofList [2, -1]) fun s k => s = [(2 : ℚ), -1].drop k) ∧
        (∀ s : List ℚ, s = [(2 : ℚ), -1].drop 1 →
          ReciprocalAt (.ofList [2, -1]) (fun s k => s = [(2 : ℚ), -1].drop k)
            (Reciprocal.start 2, s) 0) ∧
        ∀ n, ∑ i ∈ range (n + 1),
          coeffAt (.ofList [2, -1]) i * inverseCoeff (.ofList [2, -1]) (n - i) =
            if n = 0 then 1 else 0) ∧
      ((Product.feed ((Feed.ofList.focus Prod.fst fun p s => (s, p.2)).focus Prod.snd
            fun q s => (q.1, s)) (Reciprocal.feed (Feed.ofList.focus Prod.snd fun p s => (p.1, s)))).Streams
          (.ofStream fun n => if n = 0 then 1 else 0)
          (DivisionAt (.ofList [2, -1]) (.ofList [2, -1])
            fun p j k => p.1 = [(2 : ℚ), -1].drop j ∧ p.2 = [(2 : ℚ), -1].drop k) ∧
        ∀ s : List ℚ × List ℚ, (s.1 = [(2 : ℚ), -1].drop 0 ∧ s.2 = [(2 : ℚ), -1].drop 1) →
          DivisionAt (.ofList [2, -1]) (.ofList [2, -1])
            (fun p j k => p.1 = [(2 : ℚ), -1].drop j ∧ p.2 = [(2 : ℚ), -1].drop k)
            (Product.initial, Reciprocal.start 2, s) 0) ∧
      ((Product.feed ((Feed.ofList.focus Prod.fst fun p s => (s, p.2)).focus Prod.snd
            fun q s => (q.1, s)) (Reciprocal.feed (Feed.ofList.focus Prod.snd fun p s => (p.1, s)))).Streams
          (cauchy (.ofList [2, 1, -1]) (.ofStream (inverseCoeff (.ofList [2, -1]))))
          (DivisionAt (.ofList [2, 1, -1]) (.ofList [2, -1])
            fun p j k => p.1 = [(2 : ℚ), 1, -1].drop j ∧ p.2 = [(2 : ℚ), -1].drop k) ∧
        (∀ s : List ℚ × List ℚ, (s.1 = [(2 : ℚ), 1, -1].drop 0 ∧ s.2 = [(2 : ℚ), -1].drop 1) →
          DivisionAt (.ofList [2, 1, -1]) (.ofList [2, -1])
            (fun p j k => p.1 = [(2 : ℚ), 1, -1].drop j ∧ p.2 = [(2 : ℚ), -1].drop k)
            (Product.initial, Reciprocal.start 2, s) 0) ∧
        ∀ n, ∑ i ∈ range (n + 1),
          coeffAt (cauchy (.ofList [2, 1, -1]) (.ofStream (inverseCoeff (.ofList [2, -1])))) i *
            coeffAt (.ofList [2, -1]) (n - i) = coeffAt (.ofList [2, 1, -1]) n) := by
  have h := Feed.yields_ofList.streams [(2 : ℚ), -1]
  have hs := Feed.streamsBoth_focus (Feed.yields_ofList.streams [(2 : ℚ), -1])
    (Feed.yields_ofList.streams [(2 : ℚ), -1])
  have hq := Feed.streamsBoth_focus (Feed.yields_ofList.streams [(2 : ℚ), 1, -1])
    (Feed.yields_ofList.streams [(2 : ℚ), -1])
  have hne : (2 : ℚ) ≠ 0 := by norm_num
  exact ⟨h, rfl, hne, hs, hq, rfl, inverse_streams_reciprocal h rfl hne hs hq rfl⟩

/-- Division refuses a numerator with no coefficient: dividing the empty series by `1` is
refused as a product with an empty factor, after the reciprocal of `1` has been built, instead
of streaming the zero series. -/
theorem divide_refuses_empty_numerator :
    ∃ ss, (Build.multiply (.items []) (.reciprocal (Reciprocal.start 1) (.items []))).run
      ⟨[], [], World.empty⟩ = .error (.seq (.invalidArgument "cannot multiply by an empty series")) ss :=
  ⟨_, rfl⟩

end LazySeq
