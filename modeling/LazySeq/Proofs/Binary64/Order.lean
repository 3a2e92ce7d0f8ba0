import LazySeq.Proofs.Series.Ranked
import Mathlib

/-!
# Doubles that are numbers are totally ordered

A double unpacks into an infinity, not-a-number, a zero or a finite value with a sign, a mantissa
and an exponent, and its order tests compare the unpacked values: by class first (negative
infinity, negative, zero, positive, positive infinity), then by exponent and mantissa, reversed
below zero. Not-a-number compares with nothing.

`unpackedRank` writes that comparison as a triple of integers in lexicographic order.

**Main statement.** `rankedOn_not_nan`: on the doubles that are not NaN, the comparison of keys is
that of `rank`, a linear order in which the two zeros share a place. So every statement about
ranked keys holds of double keys that are numbers.
-/

namespace LazySeq

namespace Binary64

open Float.Model

/-- The place of an unpacked double in the order of its comparisons: the class, then for a finite
value its exponent and mantissa, both negated below zero. -/
def unpackedRank : UnpackedFloat → ℤ ×ₗ ℤ ×ₗ ℤ
  | .infinity .negative => toLex (0, toLex (0, 0))
  | .finite .negative m e _ => toLex (1, toLex (-e, -(m : ℤ)))
  | .zero _ => toLex (2, toLex (0, 0))
  | .finite .positive m e _ => toLex (3, toLex (e, (m : ℤ)))
  | .infinity .positive => toLex (4, toLex (0, 0))
  | .notANumber => toLex (5, toLex (0, 0))

/-- The place of a double in the order of its comparisons. -/
def rank (x : Float) : ℤ ×ₗ ℤ ×ₗ ℤ := unpackedRank x.toModel.unpack

/-! ## Comparisons of integers -/

theorem compare_natCast (m n : ℕ) : compare (m : ℤ) (n : ℤ) = compare m n :=
  compare_eq_compare Int.ofNat_lt Int.ofNat_lt

theorem compare_neg (m n : ℤ) : compare (-m) (-n) = (compare m n).swap := by
  rw [← Std.OrientedCmp.eq_swap]
  exact compare_eq_compare (by omega) (by omega)

theorem compare_toLex (a b : ℤ) (x y : ℤ ×ₗ ℤ) :
    compare (toLex (a, x)) (toLex (b, y)) = (compare a b).then (compare x y) := by
  simp [Prod.Lex.compare_def, compareLex, compareOn]

theorem compare_toLex_toLex (a b c d : ℤ) :
    compare (toLex (a, b)) (toLex (c, d)) = (compare a c).then (compare b d) := by
  simp [Prod.Lex.compare_def, compareLex, compareOn]

/-- Ranks of different classes compare by class. -/
theorem compare_toLex_of_lt {a b : ℤ} (x y : ℤ ×ₗ ℤ) (h : a < b) :
    compare (toLex (a, x)) (toLex (b, y)) = .lt := by
  rw [compare_toLex, compare_lt_iff_lt.2 h, Ordering.lt_then]

theorem compare_toLex_of_gt {a b : ℤ} (x y : ℤ ×ₗ ℤ) (h : b < a) :
    compare (toLex (a, x)) (toLex (b, y)) = .gt := by
  rw [compare_toLex, compare_gt_iff_gt.2 h, Ordering.gt_then]

/-- Ranks of one class compare by what follows the class. -/
theorem compare_toLex_self (a : ℤ) (x y : ℤ ×ₗ ℤ) :
    compare (toLex (a, x)) (toLex (a, y)) = compare x y := by
  rw [compare_toLex, compare_eq_iff_eq.2 rfl, Ordering.eq_then]

/-! ## The comparison of unpacked doubles -/

/-- **Unpacked doubles compare by their rank**, not-a-number apart. -/
theorem compare_eq_rank {u v : UnpackedFloat} (hu : u.isNaN = false) (hv : v.isNaN = false) :
    u.compare v = some (compare (unpackedRank u) (unpackedRank v)) := by
  -- two finite values of one sign compare by exponent, then mantissa; the helpers move that
  -- comparison into the ranks, negated for the negative sign
  rcases u with ⟨_ | _⟩ | _ | _ | ⟨_ | _, m, e, hm⟩ <;>
    rcases v with ⟨_ | _⟩ | _ | _ | ⟨_ | _, m', e', hm'⟩ <;>
    simp_all +decide [UnpackedFloat.compare, UnpackedFloat.isNaN, unpackedRank, compare_toLex_of_lt,
      compare_toLex_of_gt, compare_toLex_self, compare_toLex_toLex, compare_natCast, compare_neg,
      Ordering.swap_then]

theorem eq_notANumber_of_isNaN {u : UnpackedFloat} (h : u.isNaN = true) : u = .notANumber := by
  cases u <;> simp_all [UnpackedFloat.isNaN]

@[simp] theorem compare_notANumber_left (v : UnpackedFloat) : UnpackedFloat.notANumber.compare v = none :=
  rfl

@[simp] theorem compare_notANumber_right (u : UnpackedFloat) : u.compare .notANumber = none := by
  cases u <;> rfl

/-- Swapping the sides of a comparison swaps its answer; not-a-number on either side gives none. -/
theorem compare_swap (u v : UnpackedFloat) : v.compare u = (u.compare v).map Ordering.swap := by
  cases hu : u.isNaN with
  | true => simp [eq_notANumber_of_isNaN hu]
  | false =>
    cases hv : v.isNaN with
    | true => simp [eq_notANumber_of_isNaN hv]
    | false =>
      rw [compare_eq_rank hv hu, compare_eq_rank hu hv, Option.map_some, Std.OrientedOrd.eq_swap]

/-! ## The comparison of doubles -/

theorem lt_iff_unpack (a b : Float) :
    a < b ↔ a.toModel.unpack.compare b.toModel.unpack = some .lt := by
  show Float.lt a b = true ↔ _
  simp only [Float.lt, decide_eq_true_eq]
  show Float.Model.lt _ _ = true ↔ _
  simp [Float.Model.lt, UnpackedFloat.lt, Float.Model.unpack]

theorem beq_eq_unpack (a b : Float) :
    (a == b) = (a.toModel.unpack.compare b.toModel.unpack == some .eq) :=
  rfl

/-- The partial comparison of double keys is the comparison of the unpacked doubles. -/
theorem floatPartialCompare_eq_unpack (a b : Float) :
    floatPartialCompare a b = a.toModel.unpack.compare b.toModel.unpack := by
  have hgt : b < a ↔ a.toModel.unpack.compare b.toModel.unpack = some .gt := by
    rw [lt_iff_unpack, compare_swap]
    cases a.toModel.unpack.compare b.toModel.unpack with
    | none => simp
    | some o => cases o <;> simp
  unfold floatPartialCompare
  by_cases hlt : a < b
  · rw [if_pos hlt, (lt_iff_unpack a b).1 hlt]
  · rw [if_neg hlt, beq_eq_unpack]
    by_cases heq : a.toModel.unpack.compare b.toModel.unpack = some .eq
    · simp [heq]
    · rw [if_neg (by simpa using heq)]
      by_cases hba : b < a
      · rw [if_pos hba, hgt.1 hba]
      · -- no answer is left for the unpacked comparison but none
        rw [if_neg hba]
        rw [lt_iff_unpack] at hlt
        rw [hgt] at hba
        cases h : a.toModel.unpack.compare b.toModel.unpack with
        | none => rfl
        | some o => cases o <;> simp_all

/-- Doubles that are numbers and share their rank are weakly equal at every tolerance: they
compare equal. -/
theorem weakEq_of_rank_eq (t : Tolerance) {a b : Float} (ha : a.isNaN = false)
    (hb : b.isNaN = false) (h : rank a = rank b) : weakEq t a b = true := by
  have heq : (a == b) = true := by
    rw [beq_eq_unpack, compare_eq_rank ha hb]
    simp only [rank] at h
    simp [h]
  show (a == b || decide ((a - b).abs < t.epsilon)) = true
  rw [heq, Bool.true_or]

/-- **Double keys that are numbers are ranked.** Their partial comparison is that of `rank`. -/
theorem rankedOn_not_nan : RankedOn (fun x : Float => x.isNaN = false) rank := by
  intro a b ha hb
  show floatPartialCompare a b = _
  rw [floatPartialCompare_eq_unpack]
  exact compare_eq_rank ha hb

end Binary64

end LazySeq
