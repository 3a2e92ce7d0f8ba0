import LazySeq.Series.Basic

/-!
# The bisection of `partitionPoint`

`partitionPoint pred xs` halves a window `[base, base + size)` until one candidate is left and
then looks at it. When `pred` holds exactly on a prefix of `xs`, the window always contains the
end of that prefix, so the search lands on it.

**Main statement.** `partitionPoint_eq`: if `pred` holds below index `p` and fails from `p` on,
`partitionPoint pred xs = p`; `partitionPoint_append` says the same of a list split into a part
where `pred` holds and a part where it fails.
-/

namespace LazySeq

variable {α : Type}

theorem getD_map_getElem? (pred : α → Bool) (xs : List α) {j : Nat} (h : j < xs.length) :
    (xs[j]?.map pred).getD false = pred xs[j] := by
  simp [List.getElem?_eq_getElem h]

section Bisection

variable (pred : α → Bool) (xs : List α) (p : Nat)
  (htrue : ∀ j (h : j < xs.length), j < p → pred xs[j] = true)
  (hfalse : ∀ j (h : j < xs.length), p ≤ j → pred xs[j] = false)
include htrue hfalse

/-- The window `[base, base + size]` of the bisection keeps the end `p` of the prefix where
`pred` holds; the search ends on `p` or just before it, at an index of the list. -/
theorem searchBase_spec :
    ∀ (fuel base size : Nat), 0 < size → size ≤ fuel + 1 → base + size ≤ xs.length →
      base ≤ p → p ≤ base + size →
      let r := searchBase pred xs fuel base size
      r ≤ p ∧ p ≤ r + 1 ∧ r < xs.length
  | 0, base, size, hpos, hfuel, hlen, hlo, hhi => by
    simp only [searchBase]
    omega
  | fuel + 1, base, size, hpos, hfuel, hlen, hlo, hhi => by
    simp only [searchBase]
    split
    · omega
    · -- the midpoint is an index of the list, strictly inside the window
      have hmid : base + size / 2 < xs.length := by omega
      rw [getD_map_getElem? pred xs hmid]
      by_cases hm : pred xs[base + size / 2] = true
      · have hp : base + size / 2 < p := Nat.lt_of_not_le fun hle => by
          simp [hfalse _ hmid hle] at hm
        rw [if_pos hm]
        exact searchBase_spec fuel _ _ (by omega) (by omega) (by omega) (by omega) (by omega)
      · have hp : p ≤ base + size / 2 := Nat.le_of_not_lt fun hlt => hm (htrue _ hmid hlt)
        rw [if_neg hm]
        exact searchBase_spec fuel _ _ (by omega) (by omega) (by omega) (by omega) (by omega)

/-- **The bisection finds the end of the prefix where `pred` holds.** -/
theorem partitionPoint_eq (hp : p ≤ xs.length) : partitionPoint pred xs = p := by
  cases hxs : xs with
  | nil => simp_all [partitionPoint]
  | cons x rest =>
    have hne : 0 < xs.length := by simp [hxs]
    obtain ⟨hle, hge, hlt⟩ :=
      searchBase_spec pred xs p htrue hfalse xs.length 0 xs.length hne (by omega) (by omega)
        (by omega) (by omega)
    simp only [partitionPoint, ← hxs]
    rw [getD_map_getElem? pred xs hlt]
    split
    · -- `pred` holds at the landing index, so `p` lies beyond it
      rename_i hr
      have : searchBase pred xs xs.length 0 xs.length < p := Nat.lt_of_not_le fun hle => by
        simp [hfalse _ hlt hle] at hr
      omega
    · rename_i hr
      have : p ≤ searchBase pred xs xs.length 0 xs.length :=
        Nat.le_of_not_lt fun hgt => hr (htrue _ hlt hgt)
      omega

end Bisection

/-- On a list whose first part satisfies `pred` and whose rest does not, the bisection stops at
the end of the first part. -/
theorem partitionPoint_append (pred : α → Bool) (ys zs : List α) (hy : ∀ y ∈ ys, pred y = true)
    (hz : ∀ z ∈ zs, pred z = false) : partitionPoint pred (ys ++ zs) = ys.length := by
  apply partitionPoint_eq
  · intro j hj hjp
    rw [List.getElem_append_left hjp]
    exact hy _ (List.getElem_mem _)
  · intro j hj hjp
    rw [List.getElem_append_right hjp]
    exact hz _ (List.getElem_mem _)
  · simp

end LazySeq
