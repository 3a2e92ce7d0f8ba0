import LazySeq.Proofs.Binary64.Order

/-!
# Differences and comparisons of floats are symmetric

Rounding to nearest reads the sign of an exact result only into the sign of the rounded float, so
`a - b` and `b - a` round to floats of one magnitude (`Unpacked.sub_abs_comm`), and packing a
float into its word and reading it back keeps the magnitude of floats of one magnitude
(`Unpacked.abs_unpack_pack_congr`): the distance `|a - b|` of two doubles, or of two
single-precision floats, is that of `b` and `a` (`abs_sub_comm`, `abs_sub_comm32`).

The comparisons of floats swap with their sides: equality is symmetric, `<` is asymmetric, and a
float that is a number equals itself. The total order of the words swaps too, and it finds two
words equal only when they are one word (`eq_of_totalCompare_eq`). Not-a-number equals nothing,
is below and above nothing, and its distance from anything is not a number.
-/

namespace LazySeq

namespace Binary64

open Float.Model (UnpackedFloat Format)

namespace Unpacked

/-! ## Rounding does not look at the sign -/

theorem abs_roundWithAccuracy (spec : Format) (s s' : UnpackedFloat.Sign) (m : ℕ) (e : ℤ)
    (acc : UnpackedFloat.Accuracy) :
    (UnpackedFloat.roundWithAccuracy spec s m e acc).abs =
      (UnpackedFloat.roundWithAccuracy spec s' m e acc).abs := by
  unfold UnpackedFloat.roundWithAccuracy
  dsimp only
  split <;> rfl

theorem abs_round (spec : Format) (s s' : UnpackedFloat.Sign) (m : ℕ) (e : ℤ) :
    (UnpackedFloat.round spec s m e).abs = (UnpackedFloat.round spec s' m e).abs :=
  abs_roundWithAccuracy spec s s' _ _ _

/-- An exact result and its negation round to floats of one magnitude. -/
theorem abs_normalize_neg (spec : Format) (d e : ℤ) :
    (UnpackedFloat.normalize spec (-d) e .positive).abs =
      (UnpackedFloat.normalize spec d e .positive).abs := by
  unfold UnpackedFloat.normalize
  rcases lt_trichotomy d 0 with h | rfl | h
  · have h₁ : compare (-d) 0 = .gt := compare_gt_iff_gt.2 (by omega)
    have h₂ : compare d 0 = .lt := compare_lt_iff_lt.2 h
    rw [h₁, h₂]
    exact abs_round spec _ _ _ _
  · rfl
  · have h₁ : compare (-d) 0 = .lt := compare_lt_iff_lt.2 (by omega)
    have h₂ : compare d 0 = .gt := compare_gt_iff_gt.2 h
    rw [h₁, h₂, neg_neg]
    exact abs_round spec _ _ _ _

/-- `x - y` and `y - x` have one magnitude: between two finite floats the exact differences are
negations of each other, and every other case gives an infinity, a zero or not-a-number on both
sides. -/
theorem sub_abs_comm (spec : Format) (x y : UnpackedFloat) :
    (UnpackedFloat.sub spec x y).abs = (UnpackedFloat.sub spec y x).abs := by
  rcases x with ⟨_ | _⟩ | _ | ⟨_ | _⟩ | ⟨s, m, e, hm⟩ <;>
    rcases y with ⟨_ | _⟩ | _ | ⟨_ | _⟩ | ⟨s', m', e', hm'⟩ <;> try rfl
  simp only [UnpackedFloat.sub]
  rw [min_comm e' e, ← neg_sub]
  exact abs_normalize_neg spec _ _

theorem sub_notANumber_left (spec : Format) (y : UnpackedFloat) :
    UnpackedFloat.sub spec .notANumber y = .notANumber := by
  cases y <;> rfl

/-! ## Packing does not look at the sign either -/

/-- Unpacking reads the sign bit only into the sign of the float it builds, so two words with
one exponent and one mantissa unpack to floats of one magnitude. -/
theorem abs_unpack_congr {spec : Format} {b b' : BitVec spec.numBits}
    (hm : UnpackedFloat.unpackMantissa b = UnpackedFloat.unpackMantissa b')
    (he : UnpackedFloat.unpackExponent b = UnpackedFloat.unpackExponent b') :
    (UnpackedFloat.unpack spec b).abs = (UnpackedFloat.unpack spec b').abs := by
  unfold UnpackedFloat.unpack
  simp only [hm, he]
  split_ifs <;> rfl

/-- A float and its magnitude pack to words with one exponent and one mantissa. -/
theorem components_pack_abs (spec : Format) (u : UnpackedFloat) :
    UnpackedFloat.unpackMantissa (UnpackedFloat.pack spec u.abs) =
        UnpackedFloat.unpackMantissa (UnpackedFloat.pack spec u) ∧
      UnpackedFloat.unpackExponent (UnpackedFloat.pack spec u.abs) =
        UnpackedFloat.unpackExponent (UnpackedFloat.pack spec u) := by
  cases u with
  | notANumber => exact ⟨rfl, rfl⟩
  | infinity s => simp [UnpackedFloat.abs, UnpackedFloat.pack, UnpackedFloat.packedInfinity]
  | zero s => simp [UnpackedFloat.abs, UnpackedFloat.pack, UnpackedFloat.packedZero]
  | finite s m e hm =>
    simp only [UnpackedFloat.abs, UnpackedFloat.pack]
    split_ifs <;> simp [UnpackedFloat.packedInfinity]

/-- Floats of one magnitude read back, once packed, as floats of one magnitude. -/
theorem abs_unpack_pack_congr (spec : Format) {u v : UnpackedFloat} (h : u.abs = v.abs) :
    (UnpackedFloat.unpack spec (UnpackedFloat.pack spec u)).abs =
      (UnpackedFloat.unpack spec (UnpackedFloat.pack spec v)).abs := by
  have hpack : ∀ w : UnpackedFloat, (UnpackedFloat.unpack spec (UnpackedFloat.pack spec w.abs)).abs =
      (UnpackedFloat.unpack spec (UnpackedFloat.pack spec w)).abs := fun w =>
    abs_unpack_congr (components_pack_abs spec w).1 (components_pack_abs spec w).2
  rw [← hpack u, h, hpack]

/-! ## Comparisons with their sides swapped -/

/-- Equality of unpacked floats is symmetric. -/
theorem compare_eq_comm (u v : UnpackedFloat) :
    (u.compare v == some .eq) = (v.compare u == some .eq) := by
  rw [compare_swap u v]
  cases u.compare v with
  | none => rfl
  | some o => cases o <;> rfl

/-- A float that is a number is equal to itself. -/
theorem compare_refl {u : UnpackedFloat} (h : u.isNaN = false) : u.compare u = some .eq := by
  rw [compare_eq_rank h h, compare_eq_iff_eq.2 rfl]

/-- Of two floats at most one is below the other. -/
theorem not_lt_of_lt {u v : UnpackedFloat} (h : u.compare v = some .lt) :
    v.compare u ≠ some .lt := by
  rw [compare_swap, h]
  decide

end Unpacked

/-! ## Doubles -/

/-- The key the total order compares words by is one-to-one: words at or above `m` (the sign
bit) go below zero in reverse, the others stay as they are. -/
theorem totalKey_injective {m a b : ℕ}
    (h : (if a ≥ m then -((a - m : ℕ) : ℤ) - 1 else (a : ℤ)) =
      (if b ≥ m then -((b - m : ℕ) : ℤ) - 1 else (b : ℤ))) : a = b := by
  split_ifs at h <;> omega

/-- The distance of two doubles does not depend on their order. -/
theorem abs_sub_comm (a b : Float) : (a - b).abs = (b - a).abs := by
  cases a with | ofModel ma =>
  cases b with | ofModel mb =>
  show Float.ofModel (Float.Model.pack
      (Float.Model.pack (UnpackedFloat.sub _ ma.unpack mb.unpack)).unpack.abs) =
    Float.ofModel (Float.Model.pack
      (Float.Model.pack (UnpackedFloat.sub _ mb.unpack ma.unpack)).unpack.abs)
  congr 2
  exact Unpacked.abs_unpack_pack_congr _ (Unpacked.sub_abs_comm _ _ _)

theorem beq_comm (a b : Float) : (a == b) = (b == a) :=
  Unpacked.compare_eq_comm _ _

theorem beq_self {a : Float} (h : a.isNaN = false) : (a == a) = true := by
  rw [beq_eq_unpack, Unpacked.compare_refl h]
  rfl

theorem lt_asymm {a b : Float} (h : a < b) : ¬b < a := by
  rw [lt_iff_unpack] at h ⊢
  exact Unpacked.not_lt_of_lt h

theorem eq_of_toBits_eq {a b : Float} (h : a.toBits = b.toBits) : a = b := by
  cases a with | ofModel ma =>
  cases b with | ofModel mb =>
  obtain ⟨ba, va⟩ := ma
  obtain ⟨bb, vb⟩ := mb
  cases h
  rfl

theorem totalCompare_swap (a b : Float) : totalCompare b a = (totalCompare a b).swap :=
  Std.OrientedOrd.eq_swap

/-- The total order finds two doubles equal only when they are one word. -/
theorem eq_of_totalCompare_eq {a b : Float} (h : totalCompare a b = .eq) : a = b := by
  apply eq_of_toBits_eq
  exact UInt64.toNat_inj.1 (totalKey_injective (compare_eq_iff_eq.1 h))

theorem totalCompare_self (a : Float) : totalCompare a a = .eq :=
  compare_eq_iff_eq.2 rfl

/-! ### Not-a-number -/

theorem beq_of_isNaN {a : Float} (b : Float) (h : a.isNaN = true) : (a == b) = false := by
  rw [beq_eq_unpack, eq_notANumber_of_isNaN h]
  rfl

theorem not_lt_of_isNaN_left {a : Float} (b : Float) (h : a.isNaN = true) : ¬a < b := by
  rw [lt_iff_unpack, eq_notANumber_of_isNaN h, compare_notANumber_left]
  nofun

theorem not_lt_of_isNaN_right (a : Float) {b : Float} (h : b.isNaN = true) : ¬a < b := by
  rw [lt_iff_unpack, eq_notANumber_of_isNaN h, compare_notANumber_right]
  nofun

/-- The distance from not-a-number is not a number. -/
theorem isNaN_abs_sub {a : Float} (b : Float) (h : a.isNaN = true) : (a - b).abs.isNaN = true := by
  cases a with | ofModel ma =>
  have hu : ma.unpack = .notANumber := eq_notANumber_of_isNaN h
  show (Float.Model.pack (Float.Model.pack
    (UnpackedFloat.sub _ ma.unpack b.toModel.unpack)).unpack.abs).unpack.isNaN = true
  rw [hu, Unpacked.sub_notANumber_left]
  rfl

/-! ## Single-precision floats -/

theorem abs_sub_comm32 (a b : Float32) : (a - b).abs = (b - a).abs := by
  cases a with | ofModel ma =>
  cases b with | ofModel mb =>
  show Float32.ofModel (Float32.Model.pack
      (Float32.Model.pack (UnpackedFloat.sub _ ma.unpack mb.unpack)).unpack.abs) =
    Float32.ofModel (Float32.Model.pack
      (Float32.Model.pack (UnpackedFloat.sub _ mb.unpack ma.unpack)).unpack.abs)
  congr 2
  exact Unpacked.abs_unpack_pack_congr _ (Unpacked.sub_abs_comm _ _ _)

theorem lt_iff_unpack32 (a b : Float32) :
    a < b ↔ a.toModel.unpack.compare b.toModel.unpack = some .lt := by
  show Float32.lt a b = true ↔ _
  simp only [Float32.lt, decide_eq_true_eq]
  show Float32.Model.lt _ _ = true ↔ _
  simp [Float32.Model.lt, UnpackedFloat.lt, Float32.Model.unpack]

theorem beq_eq_unpack32 (a b : Float32) :
    (a == b) = (a.toModel.unpack.compare b.toModel.unpack == some .eq) :=
  rfl

theorem beq_comm32 (a b : Float32) : (a == b) = (b == a) :=
  Unpacked.compare_eq_comm _ _

theorem beq_self32 {a : Float32} (h : a.isNaN = false) : (a == a) = true := by
  rw [beq_eq_unpack32, Unpacked.compare_refl h]
  rfl

theorem lt_asymm32 {a b : Float32} (h : a < b) : ¬b < a := by
  rw [lt_iff_unpack32] at h ⊢
  exact Unpacked.not_lt_of_lt h

theorem eq_of_toBits_eq32 {a b : Float32} (h : a.toBits = b.toBits) : a = b := by
  cases a with | ofModel ma =>
  cases b with | ofModel mb =>
  obtain ⟨ba, va⟩ := ma
  obtain ⟨bb, vb⟩ := mb
  cases h
  rfl

end Binary64

theorem float32TotalCompare_swap (a b : Float32) :
    float32TotalCompare b a = (float32TotalCompare a b).swap :=
  Std.OrientedOrd.eq_swap

/-- The total order finds two single-precision floats equal only when they are one word. -/
theorem eq_of_float32TotalCompare_eq {a b : Float32} (h : float32TotalCompare a b = .eq) :
    a = b := by
  apply Binary64.eq_of_toBits_eq32
  exact UInt32.toNat_inj.1 (Binary64.totalKey_injective (compare_eq_iff_eq.1 h))

end LazySeq
