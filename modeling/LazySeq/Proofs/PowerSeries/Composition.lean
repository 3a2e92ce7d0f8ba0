import Mathlib
import LazySeq.Proofs.PowerSeries.Product

/-!
# Composition of series

The composition `a(b(x))` substitutes an inner series `b` with no constant term into an outer
series `a`. Its coefficient `n` is `∑_{k ≤ n} aₖ · [xⁿ] bᵏ`: a power `bᵏ` with `k > n` starts
beyond `xⁿ`. The composition reads the inner series without its constant term
(`dropConstant`); that is the series substituted.

The composition keeps a table of the powers of the inner series: after `n` outputs, the first
`n` coefficients of each of `b⁰, …, bⁿ⁻¹` (`powerTable`). Output `n` extends every row by its
coefficient `n`, each from the row before it, which was just extended, and adds the row of
`bⁿ` (`extendPowers_powerTable`). The rows in between are half extended, and
`partialTable` says how far.

The composition goes on while either input does, and then up to the degree of the composed
polynomials (`Composes`).

**Main statement.** `compose_streams_substitution`: over an outer input streaming `a` and an
inner input streaming `b` that has handed out its constant term, the composition streams
`composed a b`, whose coefficients are those of `a` with `b` substituted, zero past its end; for
finite inputs with `m` and `k` coefficients it ends after `max (m, k, (m - 1)(k - 1) + 1)`.
-/

namespace LazySeq

open Finset Coefficient

variable {σ : Type}

/-! ## The table of powers -/

section Table

variable (B : PowerSeries ℚ)

/-- Coefficients `0, …, m - 1` of `Bᵏ`. -/
noncomputable def powerRow (k m : ℕ) : Array ℚ :=
  ((List.range m).map fun j => PowerSeries.coeff j (B ^ k)).toArray

/-- The first `n` coefficients of each of the first `n` powers of `B`. -/
noncomputable def powerTable (n : ℕ) : Array (Array ℚ) :=
  ((List.range n).map fun k => powerRow B k n).toArray

/-- The table of the first `n` powers while rows below `K` have gained their coefficient `n`. -/
noncomputable def partialTable (n K : ℕ) : Array (Array ℚ) :=
  ((List.range n).map fun k => powerRow B k (if k < K then n + 1 else n)).toArray

variable {B}

theorem powerRow_push (k m : ℕ) :
    (powerRow B k m).push (PowerSeries.coeff m (B ^ k)) = powerRow B k (m + 1) := by
  simp [powerRow, List.range_succ]

theorem getD_powerRow {k m j : ℕ} (hj : j < m) :
    (powerRow B k m).getD j 0 = PowerSeries.coeff j (B ^ k) := by
  simp [powerRow, Array.getD_eq_getD_getElem?, List.getElem?_range hj]

theorem size_partialTable (n K : ℕ) : (partialTable B n K).size = n := by
  simp [partialTable]

theorem getElem_partialTable {n K k : ℕ} (hk : k < (partialTable B n K).size) :
    (partialTable B n K)[k] = powerRow B k (if k < K then n + 1 else n) := by
  simp [partialTable]

theorem getD_partialTable {n K k : ℕ} (hk : k < n) :
    (partialTable B n K).getD k #[] = powerRow B k (if k < K then n + 1 else n) := by
  simp [partialTable, Array.getD_eq_getD_getElem?, List.getElem?_range hk]

theorem partialTable_zero (n : ℕ) : partialTable B n 0 = powerTable B n := by
  simp [partialTable, powerTable]

/-- Extending row `K` by coefficient `n` of `Bᴷ` moves the half-extended table on by one row. -/
theorem partialTable_succ (n K : ℕ) :
    (partialTable B n K).modify K (·.push (PowerSeries.coeff n (B ^ K))) =
      partialTable B n (K + 1) := by
  apply Array.ext
  · simp [size_partialTable]
  · intro i hi hi'
    rw [Array.getElem_modify, getElem_partialTable, getElem_partialTable]
    split
    · next hKi =>
      subst hKi
      rw [if_neg (Nat.lt_irrefl K), if_pos (Nat.lt_succ_self K), powerRow_push]
    · next hKi =>
      -- the other rows keep their length: `i < K` and `i < K + 1` agree for `i ≠ K`
      have hiff : i < K ↔ i < K + 1 := by omega
      simp only [hiff]

/-- With every row extended, the half-extended table is the table of the first `n` powers to
`n + 1` coefficients. -/
theorem partialTable_self (n : ℕ) :
    partialTable B n n = ((List.range n).map fun k => powerRow B k (n + 1)).toArray := by
  simp only [partialTable]
  congr 1
  refine List.map_congr_left fun k hk => ?_
  rw [if_pos (List.mem_range.1 hk)]

end Table

/-- The coefficient a row of the table gains at `j` is coefficient `j` of the next power: the
first `n + 1` coefficients of `xs` against those of `Bᵏ` give coefficient `j ≤ n` of
`B · Bᵏ`. -/
theorem convolveAt_powerRow (xs : Stream'.Seq ℚ) {n j : ℕ} (k : ℕ) (hj : j ≤ n) :
    convolveAt (xs.take (n + 1)).toArray (powerRow (toPowerSeries xs) k (n + 1)) j =
      PowerSeries.coeff j (toPowerSeries xs ^ (k + 1)) := by
  rw [Coefficient.convolveAt_eq_sum, pow_succ', PowerSeries.coeff_mul]
  refine Finset.sum_congr rfl fun p hp => ?_
  rw [HasAntidiagonal.mem_antidiagonal] at hp
  rw [getD_take (by omega), getD_powerRow (by omega), coeff_toPowerSeries]

section Extend

variable (xs : Stream'.Seq ℚ) (n : ℕ)

/-- The pass over `d` rows of the table from row `K ≥ 1` on: each row gains coefficient `n` of
its power, computed from the row before it, which has just gained its own. -/
theorem foldl_extend_partialTable (d : ℕ) :
    ∀ K, 1 ≤ K → K + d ≤ n →
      (List.range' K d).foldl (fun ps k =>
          ps.modify k (·.push (convolveAt (xs.take (n + 1)).toArray (ps.getD (k - 1) #[]) n)))
        (partialTable (toPowerSeries xs) n K) = partialTable (toPowerSeries xs) n (K + d) := by
  induction d with
  | zero => intro K _ _; rfl
  | succ d ih =>
    intro K hK hKd
    -- row `K - 1` already has its coefficient `n`, so row `K` gains that of the next power
    have hconv := convolveAt_powerRow xs (K - 1) (le_refl n)
    rw [Nat.sub_add_cancel hK] at hconv
    rw [List.range'_succ, List.foldl_cons, getD_partialTable (by omega), if_pos (by omega), hconv,
      partialTable_succ, ih (K + 1) (by omega) (by omega)]
    congr 1
    omega

/-- The last step of a pass: the row of `Bⁿ`, computed from that of `Bⁿ⁻¹`, completes the
table to `n + 1` powers. -/
theorem partialTable_push_last (m : ℕ) :
    (partialTable (toPowerSeries xs) (m + 1) (m + 1)).push
        ((List.range (m + 2)).map (convolveAt (xs.take (m + 2)).toArray
          ((partialTable (toPowerSeries xs) (m + 1) (m + 1)).getD m #[]))).toArray =
      powerTable (toPowerSeries xs) (m + 2) := by
  have hrow : ((List.range (m + 2)).map (convolveAt (xs.take (m + 2)).toArray
      (powerRow (toPowerSeries xs) m (m + 2)))).toArray = powerRow (toPowerSeries xs) (m + 1) (m + 2) := by
    simp only [powerRow]
    congr 1
    refine List.map_congr_left fun j hj => ?_
    exact convolveAt_powerRow xs m (Nat.lt_succ_iff.1 (List.mem_range.1 hj))
  rw [getD_partialTable (Nat.lt_succ_self m), if_pos (Nat.lt_succ_self m), hrow, partialTable_self,
    List.push_toArray, powerTable, @List.range_succ (m + 1), List.map_append, List.map_singleton]

/-- **Extending the powers.** With the first `n + 1` coefficients of `xs` read and the table
of its first `n` powers held, output `n` leaves the table of the first `n + 1` powers. -/
theorem extendPowers_powerTable (outer : Array ℚ) (index : ℕ) :
    Composition.extendPowers ⟨outer, (xs.take (n + 1)).toArray, powerTable (toPowerSeries xs) n,
        index⟩ n =
      ⟨outer, (xs.take (n + 1)).toArray, powerTable (toPowerSeries xs) (n + 1), index⟩ := by
  cases n with
  | zero => simp [Composition.extendPowers, powerTable, powerRow]
  | succ m =>
    have hne : (powerTable (toPowerSeries xs) (m + 1)).isEmpty = false := by simp [powerTable]
    -- the row of `B⁰` gains a zero, which is its coefficient `m + 1`
    have hfirst : (powerTable (toPowerSeries xs) (m + 1)).modify 0
        (·.push (if m + 1 = 0 then one else zero)) = partialTable (toPowerSeries xs) (m + 1) 1 := by
      have hzero : (if m + 1 = 0 then one else zero : ℚ) = PowerSeries.coeff (m + 1) (toPowerSeries xs ^ 0) := by
        simp [PowerSeries.coeff_one]
      rw [hzero, ← partialTable_zero, partialTable_succ]
    have hfold := foldl_extend_partialTable xs (m + 1) m 1 le_rfl (by omega)
    simp only [Composition.extendPowers, hne, if_false, hfirst, size_partialTable,
      Nat.add_sub_cancel, Bool.false_eq_true, ge_iff_le, Nat.le_add_left, if_true]
    rw [Nat.add_comm 1 m] at hfold
    rw [hfold, partialTable_push_last]

end Extend

/-! ## The coefficients of a composition -/

/-- Coefficient `n` of `a` with `B` substituted, over the powers `Bᵏ` with `k ≤ n`. -/
noncomputable def composeCoeff (a : Stream'.Seq ℚ) (B : PowerSeries ℚ) (n : ℕ) : ℚ :=
  ∑ k ∈ range (n + 1), coeffAt a k * PowerSeries.coeff n (B ^ k)

/-- A power of a series without constant term starts at the power's exponent. -/
theorem coeff_pow_of_lt {B : PowerSeries ℚ} (hB : PowerSeries.constantCoeff B = 0) {n d : ℕ}
    (hnd : n < d) : PowerSeries.coeff n (B ^ d) = 0 := by
  obtain ⟨C, rfl⟩ := PowerSeries.X_dvd_iff.2 hB
  rw [mul_pow, PowerSeries.coeff_X_pow_mul', if_neg (Nat.not_le.2 hnd)]

/-- **The composition coefficient is that of the substitution**: for `B` without constant term,
`∑_{k ≤ n} aₖ · [xⁿ] Bᵏ` is coefficient `n` of `a(B)`; the powers beyond `n` add nothing. -/
theorem composeCoeff_eq_subst (a : Stream'.Seq ℚ) {B : PowerSeries ℚ}
    (hB : PowerSeries.constantCoeff B = 0) (n : ℕ) :
    composeCoeff a B n = PowerSeries.coeff n ((toPowerSeries a).subst B) := by
  have hsupp : Function.support (fun d => PowerSeries.coeff d (toPowerSeries a) •
      PowerSeries.coeff n (B ^ d)) ⊆ ↑(range (n + 1)) := by
    intro d hd
    rw [Function.mem_support] at hd
    rw [Finset.coe_range, Set.mem_Iio]
    by_contra hle
    exact hd (by rw [coeff_pow_of_lt hB (by omega), smul_zero])
  rw [PowerSeries.coeff_subst' (PowerSeries.HasSubst.of_constantCoeff_zero' hB),
    finsum_eq_sum_of_support_subset _ hsupp, composeCoeff]
  simp only [coeff_toPowerSeries, smul_eq_mul]

/-- A series whose coefficients vanish from `k` on has `Bⁱ` vanish beyond `i (k - 1)`: the
degree of a power of a polynomial. -/
theorem coeff_pow_of_degree_lt {B : PowerSeries ℚ} {k : ℕ}
    (hB : ∀ j, k ≤ j → PowerSeries.coeff j B = 0) (i : ℕ) {n : ℕ} (hn : i * (k - 1) < n) :
    PowerSeries.coeff n (B ^ i) = 0 := by
  induction i generalizing n with
  | zero => simp [PowerSeries.coeff_one, Nat.pos_iff_ne_zero.1 (by simpa using hn)]
  | succ i ih =>
    rw [pow_succ, PowerSeries.coeff_mul]
    refine Finset.sum_eq_zero fun p hp => ?_
    rw [HasAntidiagonal.mem_antidiagonal] at hp
    -- either the factor of `B` is past its degree, or that of `Bⁱ` is
    rcases Nat.lt_or_ge p.2 k with hq | hq
    · have hdeg : (i + 1) * (k - 1) = i * (k - 1) + (k - 1) := Nat.succ_mul i (k - 1)
      rw [ih (by omega), zero_mul]
    · rw [hB p.2 hq, mul_zero]

/-- The composition of `a` and `b` has a coefficient at `n`: one of them goes on to `n`, or
some coefficients `aᵢ` and `bⱼ` have `n ≤ i · j`, within the degree of the composed
polynomials. -/
def Composes (a b : Stream'.Seq ℚ) (n : ℕ) : Prop :=
  (a.get? n).isSome ∨ (b.get? n).isSome ∨
    ∃ i ∈ range (n + 1), ∃ j ∈ range (n + 1), (a.get? i).isSome ∧ (b.get? j).isSome ∧ n ≤ i * j

instance Composes.decidable (a b : Stream'.Seq ℚ) (n : ℕ) : Decidable (Composes a b n) :=
  inferInstanceAs (Decidable (_ ∨ _ ∨ ∃ i ∈ range (n + 1), _))

/-- A coefficient of the composition at `n + 1` means one at `n`: the same pair of
coefficients reaches `n`, unless one of them is at `n + 1` and its sequence goes on to `n`. -/
theorem Composes.pred {a b : Stream'.Seq ℚ} {n : ℕ} (h : Composes a b (n + 1)) :
    Composes a b n := by
  rcases h with ha | hb | ⟨i, hi, j, hj, hai, hbj, hle⟩
  · exact .inl (isSome_get?_of_le (Nat.le_succ n) ha)
  · exact .inr (.inl (isSome_get?_of_le (Nat.le_succ n) hb))
  · rw [Finset.mem_range] at hi hj
    rcases Nat.lt_or_ge i (n + 1) with hi' | hi'
    · rcases Nat.lt_or_ge j (n + 1) with hj' | hj'
      · exact .inr (.inr ⟨i, mem_range.2 hi', j, mem_range.2 hj', hai, hbj, by omega⟩)
      · exact .inr (.inl (isSome_get?_of_le (by omega) hbj))
    · exact .inl (isSome_get?_of_le (by omega) hai)

/-- With `m` coefficients in `a` and `k ≥ 1` in `b`, the composition has a coefficient at `n`
exactly when `n < m`, `n < k` or `n ≤ (m - 1)(k - 1)`, the degree of the composed
polynomials. -/
theorem composes_iff_of_lengths {a b : Stream'.Seq ℚ} {m k : ℕ}
    (hla : ∀ i, (a.get? i).isSome ↔ i < m) (hlb : ∀ j, (b.get? j).isSome ↔ j < k) (hk : 0 < k)
    (n : ℕ) : Composes a b n ↔ n < m ∨ n < k ∨ n ≤ (m - 1) * (k - 1) := by
  simp only [Composes, hla, hlb, Finset.mem_range]
  constructor
  · rintro (h | h | ⟨i, -, j, -, hi, hj, hle⟩)
    · exact .inl h
    · exact .inr (.inl h)
    · exact .inr (.inr (hle.trans (Nat.mul_le_mul (by omega) (by omega))))
  · rintro (h | h | h)
    · exact .inl h
    · exact .inr (.inl h)
    · by_cases hm : n < m
      · exact .inl hm
      by_cases hk' : n < k
      · exact .inr (.inl hk')
      -- past both ends: the last coefficients of the two give the degree
      have hm0 : 0 < m := by
        rcases Nat.eq_zero_or_pos m with rfl | hm0
        · simp only [Nat.zero_sub, Nat.zero_mul, Nat.le_zero] at h
          omega
        · exact hm0
      exact .inr (.inr ⟨m - 1, by omega, k - 1, by omega, by omega, by omega, h⟩)

/-- The composition of `a` and `b` as a sequence: coefficient `n` is `∑_{k ≤ n} aₖ · [xⁿ] bᵏ`,
there while `Composes a b n`. -/
noncomputable def composed (a b : Stream'.Seq ℚ) : Stream'.Seq ℚ :=
  ⟨fun n => if Composes a b n then some (composeCoeff a (toPowerSeries b) n) else none,
    fun {n} h => by
      have hn : ¬Composes a b n := fun hc => by simp [hc] at h
      exact if_neg fun hc => hn hc.pred⟩

theorem composed_get? (a b : Stream'.Seq ℚ) (n : ℕ) :
    (composed a b).get? n =
      if Composes a b n then some (composeCoeff a (toPowerSeries b) n) else none := rfl

theorem isSome_composed_get? (a b : Stream'.Seq ℚ) (n : ℕ) :
    ((composed a b).get? n).isSome = decide (Composes a b n) := by
  rw [composed_get?]
  split <;> simp_all

/-- **Past the end of the composition its coefficients are zero**: both inputs have ended, and
every power of `b` that meets a coefficient of `a` is past its degree at `n`. -/
theorem composeCoeff_eq_zero {a b : Stream'.Seq ℚ} {n : ℕ} (hn : ¬Composes a b n) :
    composeCoeff a (toPowerSeries b) n = 0 := by
  simp only [Composes, not_or, not_exists, not_and, Finset.mem_range, Bool.not_eq_true,
    Option.isSome_eq_false_iff, Option.isNone_iff_eq_none, not_le] at hn
  obtain ⟨hA, hB, hdeg⟩ := hn
  have hlb := isSome_get?_iff_of_get?_eq_none hB
  have hk : (b.take n).length ≤ n := Stream'.Seq.length_take_le
  -- `b` has `(b.take n).length` coefficients, so its powers have the degrees of a polynomial
  have hvanish : ∀ j, (b.take n).length ≤ j → PowerSeries.coeff j (toPowerSeries b) = 0 := by
    intro j hj
    have hnone : ¬(b.get? j).isSome := fun h => Nat.not_lt.2 hj ((hlb j).1 h)
    simp [coeffAt, Option.not_isSome_iff_eq_none.1 hnone]
  refine Finset.sum_eq_zero fun i hi => ?_
  rw [Finset.mem_range] at hi
  cases hai : a.get? i with
  | none => simp [coeffAt, hai]
  | some x =>
    have hin : i < n := by
      rcases Nat.lt_or_ge i n with h | h
      · exact h
      · have : i = n := by omega
        subst this
        simp [hA] at hai
    have hlt : i * ((b.take n).length - 1) < n := by
      rcases Nat.eq_zero_or_pos (b.take n).length with h0 | hpos
      · rw [h0, Nat.zero_sub, Nat.mul_zero]
        omega
      · exact hdeg i (by omega) ((b.take n).length - 1) (by omega) (by simp [hai])
          ((hlb _).2 (by omega))
    rw [coeff_pow_of_degree_lt hvanish i hlt, mul_zero]

/-- The coefficients of the composition, zero past its end, are all `∑_{k ≤ n} aₖ · [xⁿ] bᵏ`. -/
theorem coeffAt_composed (a b : Stream'.Seq ℚ) (n : ℕ) :
    coeffAt (composed a b) n = composeCoeff a (toPowerSeries b) n := by
  rw [coeffAt, composed_get?]
  split
  · rfl
  · next hn => exact (composeCoeff_eq_zero hn).symm

/-! ## The inner series without its constant term -/

/-- The inner series as the composition substitutes it: its constant term replaced by zero. -/
def dropConstant (b : Stream'.Seq ℚ) : Stream'.Seq ℚ := .cons 0 b.tail

@[simp] theorem get?_dropConstant_zero (b : Stream'.Seq ℚ) : (dropConstant b).get? 0 = some 0 :=
  Stream'.Seq.get?_cons_zero _ _

@[simp] theorem get?_dropConstant_succ (b : Stream'.Seq ℚ) (k : ℕ) :
    (dropConstant b).get? (k + 1) = b.get? (k + 1) := by
  rw [dropConstant, Stream'.Seq.get?_cons_succ, Stream'.Seq.get?_tail]

theorem constantCoeff_dropConstant (b : Stream'.Seq ℚ) :
    PowerSeries.constantCoeff (toPowerSeries (dropConstant b)) = 0 := by
  rw [← PowerSeries.coeff_zero_eq_constantCoeff_apply, coeff_toPowerSeries, coeffAt,
    get?_dropConstant_zero]
  rfl

/-- Without its constant term a series with one has its coefficients at the same indices. -/
theorem isSome_get?_dropConstant {b : Stream'.Seq ℚ} (hb : (b.get? 0).isSome) (i : ℕ) :
    ((dropConstant b).get? i).isSome = (b.get? i).isSome := by
  cases i with
  | zero => simp [hb]
  | succ i => rw [get?_dropConstant_succ]

/-! ## One output of the composition -/

/-- What the composition holds after `n` outputs: the first `n` coefficients of `a`, the first
`max n 1` of `b` (the constant term was read when it was built), and the first `n`
coefficients of the first `n` powers of `b`. -/
noncomputable def compositionAfter (a b : Stream'.Seq ℚ) (n : ℕ) : Composition ℚ :=
  ⟨(a.take n).toArray, (b.take (max n 1)).toArray, powerTable (toPowerSeries b) n, n⟩

/-- A sum over pairs of two lists, the second indexed, is a sum over the indices: pairs past the
end of the first list add nothing. -/
theorem sum_zip_map_range {β : Type} (f : ℚ × β → ℚ) (c : β → ℚ)
    (hf : ∀ x p, f (x, p) = x * c p) (l : List ℚ) (g : ℕ → β) (m : ℕ) :
    ((l.zip ((List.range m).map g)).map f).sum = ∑ k ∈ range m, l.getD k 0 * c (g k) := by
  induction l generalizing m g with
  | nil => simp
  | cons x l ih =>
    cases m with
    | zero => simp
    | succ m =>
      rw [List.range_succ_eq_map, List.map_cons, List.map_map, List.zip_cons_cons, List.map_cons,
        List.sum_cons, ih, Finset.sum_range_succ', hf, add_comm]
      simp

/-- The output sums each outer coefficient known times coefficient `n` of its row of the table:
that is `∑_{k ≤ n} aₖ · [xⁿ] Bᵏ`. -/
theorem sum_powers_column (a : Stream'.Seq ℚ) (B : PowerSeries ℚ) (n : ℕ)
    (f : ℚ × Array ℚ → ℚ) (hf : ∀ x p, f (x, p) = x * p.getD n 0) :
    sum (((a.take (n + 1)).zip (powerTable B (n + 1)).toList).map f) = composeCoeff a B n := by
  rw [sum_exact, powerTable, List.toList_toArray, sum_zip_map_range f (fun p => p.getD n 0) hf,
    composeCoeff]
  refine Finset.sum_congr rfl fun k hk => ?_
  rw [Finset.mem_range] at hk
  rw [getD_powerRow (Nat.lt_succ_self n), List.getD_eq_getElem?_getD, Stream'.Seq.getElem?_take,
    if_pos hk]
  rfl

section Step

variable {outer inner : Feed σ ℚ} {a b : Stream'.Seq ℚ} {R : σ → ℕ → ℕ → Prop} {s : σ} {n : ℕ}

/-- After `n` outputs the composition goes on exactly when it has coefficient `n`: while an
input goes on, by that input; once both have ended, by the degree of what was read. -/
theorem Composition.hasNext_after (h : Feed.StreamsBoth outer inner a b R)
    (hb : (b.get? 0).isSome) (hs : R s (a.take n).length (b.take (max n 1)).length) :
    ∃ s', Composition.hasNext outer inner (compositionAfter a b n) s =
      (.ok (decide (Composes a b n)), s') ∧ R s' (a.take n).length (b.take (max n 1)).length := by
  obtain ⟨s₁, ho, hs₁⟩ := (h.left _).hasNext hs
  rw [get?_length_take] at ho
  cases hA : a.get? n with
  | some x =>
    have hn : Composes a b n := .inl (by simp [hA])
    exact ⟨s₁, by simp [Composition.hasNext, ho, hA, hn], hs₁⟩
  | none =>
    obtain ⟨s₂, hi, hs₂⟩ := (h.right _).hasNext hs₁
    rw [get?_length_take] at hi
    cases hB : b.get? (max n 1) with
    | some y =>
      have hn : Composes a b n :=
        .inr (.inl (isSome_get?_of_le (Nat.le_max_left n 1) (by simp [hB])))
      exact ⟨s₂, by simp [Composition.hasNext, ho, hA, hi, hB, hn], hs₂⟩
    | none =>
      -- both inputs have ended: their coefficients are those read, and the degree decides
      have hla := isSome_get?_iff_of_get?_eq_none hA
      have hlb := isSome_get?_iff_of_get?_eq_none hB
      have hk : 0 < (b.take (max n 1)).length := (hlb 0).1 hb
      have hm : (a.take n).length ≤ n := Stream'.Seq.length_take_le
      have hk' : (b.take (max n 1)).length ≤ max n 1 := Stream'.Seq.length_take_le
      have hn : Composes a b n ↔
          n ≤ ((a.take n).length - 1) * ((b.take (max n 1)).length - 1) := by
        rw [composes_iff_of_lengths hla hlb hk]
        omega
      refine ⟨s₂, ?_, hs₂⟩
      simp [Composition.hasNext, ho, hA, hi, hB, Composition.degree, compositionAfter, hn]

/-- Output `n` of the composition is `∑_{k ≤ n} aₖ · [xⁿ] bᵏ`; it reads coefficient `n` of each
input, if it has one and has not read it, and extends the table of powers. -/
theorem Composition.tryNext_after (h : Feed.StreamsBoth outer inner a b R)
    (hb : (b.get? 0).isSome) (hs : R s (a.take n).length (b.take (max n 1)).length)
    (hn : Composes a b n) :
    ∃ s', Composition.tryNext outer inner (compositionAfter a b n) s =
      (.ok (composeCoeff a (toPowerSeries b) n), compositionAfter a b (n + 1), s') ∧
      R s' (a.take (n + 1)).length (b.take (max (n + 1) 1)).length := by
  obtain ⟨s₁, hh, hs₁⟩ := Composition.hasNext_after h hb hs
  obtain ⟨s₂, hri, hs₂⟩ := (h.right _).readAt_take_max hb hs₁
  obtain ⟨s₃, hro, hs₃⟩ := (h.left _).readAt_take hs₂
  have hmax : max (n + 1) 1 = n + 1 := Nat.max_eq_left (Nat.succ_pos n)
  refine ⟨s₃, ?_, by rwa [hmax]⟩
  simp only [compositionAfter] at hh ⊢
  simp only [Composition.tryNext, hh, decide_eq_true hn, hri, hro, extendPowers_powerTable, hmax]
  rw [sum_powers_column a (toPowerSeries b) n]
  intro x p
  rfl

/-- **The composition streams `composed a b`**, over inputs that stream `a` and `b`. -/
theorem Composition.streams_composed (h : Feed.StreamsBoth outer inner a b R)
    (hb : (b.get? 0).isSome) :
    (Composition.feed outer inner).Streams (composed a b) fun p n =>
      p.1 = compositionAfter a b n ∧ R p.2 (a.take n).length (b.take (max n 1)).length where
  hasNext := by
    rintro ⟨st, s⟩ n ⟨rfl, hs⟩
    obtain ⟨s', hh, hs'⟩ := Composition.hasNext_after h hb hs
    exact ⟨(compositionAfter a b n, s'), by simp [Composition.feed, hh, isSome_composed_get?], rfl,
      hs'⟩
  tryNext := by
    rintro ⟨st, s⟩ n c ⟨rfl, hs⟩ hc
    rw [composed_get?] at hc
    split at hc
    · next hn =>
      obtain ⟨s', ht, hs'⟩ := Composition.tryNext_after h hb hs hn
      cases hc
      exact ⟨(compositionAfter a b (n + 1), s'), by simp [Composition.feed, ht], rfl, hs'⟩
    · cases hc

end Step

/-! ## Composing -/

/-- The composition after `n` outputs, over an outer input streaming `a` and an inner one
streaming `b`: it holds `compositionAfter` of `a` and `b` without its constant term, and the
inputs have handed out the first `n` coefficients of `a` and the first `max n 1` of `b`. -/
def CompositionAt (a b : Stream'.Seq ℚ) (R : σ → ℕ → ℕ → Prop) (p : Composition ℚ × σ)
    (n : ℕ) : Prop :=
  p.1 = compositionAfter a (dropConstant b) n ∧ R p.2 (a.take n).length (b.take (max n 1)).length

/-- Read without its constant term, the inner series is what the pair of inputs streams once the
constant term is gone: the two relations agree. -/
theorem compositionAt_eq {a b : Stream'.Seq ℚ} {R : σ → ℕ → ℕ → Prop} (hb : (b.get? 0).isSome) :
    CompositionAt a b R = fun p n => p.1 = compositionAfter a (dropConstant b) n ∧
      (1 ≤ ((dropConstant b).take (max n 1)).length ∧
        R p.2 (a.take n).length ((dropConstant b).take (max n 1)).length) := by
  funext p n
  have hlen := length_take_congr (isSome_get?_dropConstant hb) (max n 1)
  have hpos : 0 < (b.take (max n 1)).length :=
    (isSome_get?_iff_lt_length_take (Nat.lt_of_lt_of_le one_pos (Nat.le_max_right n 1))).1 hb
  simp only [CompositionAt, hlen]
  exact propext ⟨fun ⟨h1, h2⟩ => ⟨h1, hpos, h2⟩, fun ⟨h1, _, h2⟩ => ⟨h1, h2⟩⟩

/-- **Composing substitutes the inner series into the outer one.** Over an outer input that
streams `a` and an inner one that streams `b` and has handed out its constant term, finite or
not, the composition streams `composed a (dropConstant b)` from its start: output `n` is
`∑_{k ≤ n} aₖ · [xⁿ] b'ᵏ`, `b'` being `b` with its constant term replaced by zero, and after `n`
outputs the inputs have handed out the first `n` coefficients of `a` and the first `max n 1`
of `b` (`CompositionAt`). Its coefficients, zero past its end, are those of `a(b')`. For `a`
with `m` coefficients and `b` with `k`, it has a coefficient at `n` exactly when `n < m`,
`n < k` or `n ≤ (m - 1)(k - 1)`. -/
theorem compose_streams_substitution {outer inner : Feed σ ℚ} {a b : Stream'.Seq ℚ}
    {R : σ → ℕ → ℕ → Prop} (h : Feed.StreamsBoth outer inner a b R) (hb : (b.get? 0).isSome) :
    ((Composition.feed outer inner).Streams (composed a (dropConstant b)) (CompositionAt a b R) ∧
      ∀ s, R s 0 1 → CompositionAt a b R (Composition.initial, s) 0) ∧
    (∀ n, coeffAt (composed a (dropConstant b)) n =
      PowerSeries.coeff n ((toPowerSeries a).subst (toPowerSeries (dropConstant b)))) ∧
    ∀ m k : ℕ, a.length' = m → b.length' = k →
      ∀ n, ((composed a (dropConstant b)).get? n).isSome ↔
        n < m ∨ n < k ∨ n ≤ (m - 1) * (k - 1) := by
  refine ⟨⟨?_, ?_⟩, ?_, ?_⟩
  · rw [compositionAt_eq hb]
    exact Composition.streams_composed (h.of_agree_succ (get?_dropConstant_succ b)) (by simp)
  · intro s hs
    refine ⟨?_, by simpa [length_take_one hb] using hs⟩
    simp [Composition.initial, compositionAfter, powerTable, dropConstant]
  · intro n
    rw [coeffAt_composed, composeCoeff_eq_subst a (constantCoeff_dropConstant b)]
  · -- finite inputs: the lengths decide, `b` without its constant term having as many
    intro m k hm hk n
    have hla := isSome_get?_iff_of_length' hm
    have hlb := isSome_get?_iff_of_length' hk
    have hlb' : ∀ j, ((dropConstant b).get? j).isSome ↔ j < k := fun j => by
      rw [isSome_get?_dropConstant hb]
      exact hlb j
    rw [isSome_composed_get?, decide_eq_true_iff]
    exact composes_iff_of_lengths hla hlb' ((hlb 0).1 hb) n

/-- `(1 + y)²` with `y = 2x` over two lists, the inner one having handed out its constant
term: `1 + 4x + 4x²`. -/
theorem compose_streams_substitution_lists :
    Feed.StreamsBoth (Feed.ofList.focus Prod.fst fun p s => (s, p.2))
        (Feed.ofList.focus Prod.snd fun p s => (p.1, s)) (.ofList [1, 2, 1]) (.ofList [0, 2])
        (fun p j k => p.1 = [(1 : ℚ), 2, 1].drop j ∧ p.2 = [(0 : ℚ), 2].drop k) ∧
      ((Stream'.Seq.ofList [(0 : ℚ), 2]).get? 0).isSome ∧
      ((Composition.feed (Feed.ofList.focus Prod.fst fun p s => (s, p.2))
          (Feed.ofList.focus Prod.snd fun p s => (p.1, s))).Streams
          (composed (.ofList [1, 2, 1]) (dropConstant (.ofList [0, 2])))
          (CompositionAt (.ofList [1, 2, 1]) (.ofList [0, 2])
            fun p j k => p.1 = [(1 : ℚ), 2, 1].drop j ∧ p.2 = [(0 : ℚ), 2].drop k) ∧
        ∀ s : List ℚ × List ℚ, (s.1 = [(1 : ℚ), 2, 1].drop 0 ∧ s.2 = [(0 : ℚ), 2].drop 1) →
          CompositionAt (.ofList [1, 2, 1]) (.ofList [0, 2])
            (fun p j k => p.1 = [(1 : ℚ), 2, 1].drop j ∧ p.2 = [(0 : ℚ), 2].drop k)
            (Composition.initial, s) 0) ∧
      (∀ n, coeffAt (composed (.ofList [1, 2, 1]) (dropConstant (.ofList [0, 2]))) n =
        PowerSeries.coeff n ((toPowerSeries (.ofList [1, 2, 1])).subst
          (toPowerSeries (dropConstant (.ofList [0, 2]))))) ∧
      ∀ m k : ℕ, (Stream'.Seq.ofList [(1 : ℚ), 2, 1]).length' = m →
        (Stream'.Seq.ofList [(0 : ℚ), 2]).length' = k →
        ∀ n, ((composed (.ofList [1, 2, 1]) (dropConstant (.ofList [0, 2]))).get? n).isSome ↔
          n < m ∨ n < k ∨ n ≤ (m - 1) * (k - 1) := by
  have h := Feed.streamsBoth_focus (Feed.yields_ofList.streams [(1 : ℚ), 2, 1])
    (Feed.yields_ofList.streams [(0 : ℚ), 2])
  exact ⟨h, rfl, compose_streams_substitution h rfl⟩

end LazySeq
