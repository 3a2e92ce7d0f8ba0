import LazySeq.Proofs.Binary64.Order
import LazySeq.Proofs.Series.Merge

/-!
# Lookup by bisection is a linear scan

`Series.legIndex` finds the entry in force at a key by the bisection of `partitionPoint`, over the
test "the entry's key is at or below the key asked for". A reader that looked at every entry would
keep the last one that passes (`Series.atOrBelow`). The two agree when the test holds on a prefix
of the entries, and it does on a series in key order whose keys are ranked (`Series.Ordered`):
keys strictly increase, so those at or below a ranked key come first; and a key that is not ranked
(a double that is not a number) compares with no key, so only the default is at or below it.

So on every series handed out with ranked keys, `applyAt` gives the value of the last entry at or
below the key asked for, and two keys fall under one entry exactly when no key of the series lies
above the lower of them and at or below the higher. At the absent key only a default is at or
below, whatever the keys: `applyAt none` is the default value of every series handed out.

On doubles the test need not hold on a prefix: `new` accepts the keys `1, NaN, 2`, and asked for
`2` the bisection stops at the entry keyed `1`.

**Main statement.** `Series.Produced.bisection_eq_scan`; `Series.bisection_skips_past_nan` is the
series of doubles on which the two differ.
-/

namespace LazySeq

variable {κ ν β : Type}

/-- Keys outside `good` compare with no key, as a double that is not a number does. -/
def IncomparableOff [PartialCompare κ] (good : κ → Prop) : Prop :=
  ∀ a b, ¬ good a → partialCompare a b = none ∧ partialCompare b a = none

/-- When every key is ranked, none is left to compare with nothing. -/
theorem incomparableOff_true [PartialCompare κ] : IncomparableOff (fun _ : κ => True) :=
  fun _ _ h => absurd trivial h

/-- A double that is not a number compares with nothing. -/
theorem Binary64.incomparableOff_nan : IncomparableOff (fun x : Float => x.isNaN = false) := by
  intro a b ha
  have hnan : a.isNaN = true := by simpa only [Bool.not_eq_false] using ha
  have hu : a.toModel.unpack = .notANumber := Binary64.eq_notANumber_of_isNaN hnan
  refine ⟨?_, ?_⟩
  · show floatPartialCompare a b = none
    rw [Binary64.floatPartialCompare_eq_unpack, hu, Binary64.compare_notANumber_left]
  · show floatPartialCompare b a = none
    rw [Binary64.floatPartialCompare_eq_unpack, hu, Binary64.compare_notANumber_right]

/-! ## The order tests on ranked keys and keys that compare with nothing -/

section Tests

variable [PartialCompare κ] [LinearOrder β] {good : κ → Prop} {rank : κ → β}

theorem PartialCompare.le_of_lt {a b : κ} (h : PartialCompare.lt a b = true) :
    PartialCompare.le a b = true := by
  simp only [PartialCompare.lt, beq_iff_eq] at h
  simp [PartialCompare.le, h]

/-- Keys that pass an order test are ranked: the others compare with nothing. -/
theorem IncomparableOff.good_of_le (hoff : IncomparableOff good) {a b : κ}
    (h : PartialCompare.le a b = true) : good a ∧ good b := by
  constructor
  · by_contra ha
    simp [PartialCompare.le, (hoff a b ha).1] at h
  · by_contra hb
    simp [PartialCompare.le, (hoff b a hb).2] at h

theorem RankedOn.le_trans (hr : RankedOn good rank) {a b c : Option κ} (ha : AllGood good a)
    (hb : AllGood good b) (hc : AllGood good c) (hab : PartialCompare.le a b = true)
    (hbc : PartialCompare.le b c = true) : PartialCompare.le a c = true :=
  (hr.le_iff ha hc).2 (((hr.le_iff ha hb).1 hab).trans ((hr.le_iff hb hc).1 hbc))

/-- A key ranked below one at or below `k` is at or below `k`, whatever `k` is: a key that is not
ranked has only the absent key at or below it. -/
theorem RankedOn.le_of_orank_le_of_le (hr : RankedOn good rank) (hoff : IncomparableOff good)
    {a b : Option κ} (ha : AllGood good a) (hb : AllGood good b) (hab : orank rank a ≤ orank rank b)
    {k : Option κ} (hbk : PartialCompare.le b k = true) : PartialCompare.le a k = true := by
  -- where only the absent key is at or below `k`, `b` is absent and `a` is too
  have habsent : b = none → PartialCompare.le a k = true := by
    rintro rfl
    cases a with
    | none => exact Series.none_le k
    | some x => exact absurd hab (by simp)
  cases k with
  | none =>
    cases b with
    | none => exact habsent rfl
    | some y => simp at hbk
  | some z =>
    by_cases hz : good z
    · have hz' : AllGood good (some z) := (allGood_some good z).2 hz
      exact (hr.le_iff ha hz').2 (hab.trans ((hr.le_iff hb hz').1 hbk))
    · cases b with
      | none => exact habsent rfl
      | some y => simp [PartialCompare.le, partialCompare, (hoff z y hz).2] at hbk

end Tests

/-- Filtering by a test that implies another on the list keeps a sublist of what the other keeps. -/
theorem filter_sublist_filter {α : Type} {l : List α} {p q : α → Bool}
    (hpq : ∀ a ∈ l, p a = true → q a = true) : (l.filter p).Sublist (l.filter q) := by
  have hsame : l.filter p = (l.filter q).filter p := by
    rw [List.filter_filter]
    exact List.filter_congr fun a ha => by cases hp : p a <;> simp [hp, hpq a ha]
  rw [hsame]
  exact List.filter_sublist

/-- Two filters, the first test implying the second on the list, keep as many elements exactly
when the second implies the first too. -/
theorem length_filter_eq_iff {α : Type} {l : List α} {p q : α → Bool}
    (hpq : ∀ a ∈ l, p a = true → q a = true) :
    (l.filter p).length = (l.filter q).length ↔ ∀ a ∈ l, q a = true → p a = true := by
  rw [(filter_sublist_filter hpq).length_eq]
  constructor
  · intro heq a ha hqa
    have hmem : a ∈ l.filter p := heq ▸ List.mem_filter.2 ⟨ha, hqa⟩
    exact (List.mem_filter.1 hmem).2
  · intro hqp
    exact List.filter_congr fun a ha => by
      cases hq : q a with
      | true => exact hqp a ha hq
      | false => cases hp : p a <;> simp_all

namespace Series

/-! ## Series in key order with ranked keys -/

section Ordered

variable [PartialCompare κ] [LinearOrder β] {good : κ → Prop} {rank : κ → β}

/-- A series in key order with ranked keys: keys strictly increase, the default (if any) first,
and every key present is ranked. -/
structure Ordered (good : κ → Prop) (rank : κ → β) (s : Series κ ν) : Prop where
  strict : KeysStrict rank s.entries
  allGood : ∀ e ∈ s.entries, AllGood good e.1

/-- Every series handed out whose keys are ranked is in key order. -/
theorem Produced.ordered [WeakEq κ] [WeakEq ν] (hr : RankedOn good rank) {s : Series κ ν}
    (hs : Produced s) (hgood : ∀ k ∈ s.keys, AllGood good k) : s.Ordered good rank :=
  ⟨hs.keysStrict hr hgood, fun e he => hgood e.1 (List.mem_map_of_mem he)⟩

/-- The entries at or below a key, read one by one. -/
def atOrBelow (s : Series κ ν) (k : Option κ) : List (Entry κ ν) :=
  s.entries.filter fun e => PartialCompare.le e.1 k

theorem sameLeg_comm (s : Series κ ν) (x y : Option κ) : s.sameLeg x y = s.sameLeg y x := by
  simp only [sameLeg]
  exact BEq.comm

variable (hr : RankedOn good rank) (hoff : IncomparableOff good)
include hr hoff

/-- On entries in key order with ranked keys, past the first entry that is not at or below `k`
no entry is, whatever `k` is. -/
theorem forall_not_le_dropWhile (k : Option κ) :
    ∀ {es : List (Entry κ ν)}, KeysSorted rank es → (∀ e ∈ es, AllGood good e.1) →
      ∀ z ∈ es.dropWhile (fun e => PartialCompare.le e.1 k), PartialCompare.le z.1 k = false
  | [], _, _ => by simp
  | a :: rest, hs, hg => by
    by_cases ha : PartialCompare.le a.1 k = true
    · simp only [List.dropWhile_cons, ha, if_true]
      exact forall_not_le_dropWhile k hs.of_cons fun e he => hg e (List.mem_cons_of_mem _ he)
    · simp only [List.dropWhile_cons, ha, Bool.false_eq_true, if_false]
      intro z hz
      rcases List.mem_cons.1 hz with rfl | hz'
      · simpa using ha
      · -- a later entry at or below `k` would put `a`, ranked below it, at or below `k`
        cases hzk : PartialCompare.le z.1 k with
        | false => rfl
        | true =>
          exact absurd (hr.le_of_orank_le_of_le hoff (hg a List.mem_cons_self)
            (hg z (List.mem_cons_of_mem _ hz')) (List.rel_of_pairwise_cons hs hz') hzk) ha

variable {s : Series κ ν} (h : s.Ordered good rank)
include h

/-- **The entries at or below a key come first.** -/
theorem Ordered.takeWhile_eq_atOrBelow (k : Option κ) :
    s.entries.takeWhile (fun e => PartialCompare.le e.1 k) = s.atOrBelow k := by
  set p : Entry κ ν → Bool := fun e => PartialCompare.le e.1 k with hp
  have hd : ∀ z ∈ s.entries.dropWhile p, p z = false :=
    forall_not_le_dropWhile hr hoff k h.strict.keysSorted h.allGood
  calc s.entries.takeWhile p = (s.entries.takeWhile p ++ s.entries.dropWhile p).filter p := by
        rw [List.filter_append, List.filter_eq_self.2 fun _ he => @List.mem_takeWhile_imp _ p _ _ he,
          List.filter_eq_nil_iff.2 fun z hz => by simp [hd z hz], List.append_nil]
    _ = s.atOrBelow k := by rw [List.takeWhile_append_dropWhile, atOrBelow]

/-- The bisection counts the entries at or below the key. -/
theorem Ordered.partitionPoint_eq (k : Option κ) :
    partitionPoint (fun e => PartialCompare.le e.1 k) s.entries = (s.atOrBelow k).length := by
  set p : Entry κ ν → Bool := fun e => PartialCompare.le e.1 k with hp
  have happ := partitionPoint_append p (s.entries.takeWhile p) (s.entries.dropWhile p)
    (fun _ hy => List.mem_takeWhile_imp hy)
    (forall_not_le_dropWhile hr hoff k h.strict.keysSorted h.allGood)
  rwa [List.takeWhile_append_dropWhile, h.takeWhile_eq_atOrBelow hr hoff] at happ

/-- The index found is that of the last entry at or below the key, the first when none is. -/
theorem Ordered.legIndex_getD (k : Option κ) : (s.legIndex k).getD 0 = (s.atOrBelow k).length - 1 := by
  simp only [legIndex, h.partitionPoint_eq hr hoff k]
  cases (s.atOrBelow k).length <;> rfl

/-- Two keys find one index exactly when as many entries are at or below each. -/
theorem Ordered.legIndex_eq_iff (x y : Option κ) :
    s.legIndex x = s.legIndex y ↔ (s.atOrBelow x).length = (s.atOrBelow y).length := by
  simp only [legIndex, h.partitionPoint_eq hr hoff x, h.partitionPoint_eq hr hoff y]
  cases (s.atOrBelow x).length <;> cases (s.atOrBelow y).length <;> simp

/-- **Lookup reads the last entry at or below the key.** -/
theorem Ordered.applyAt_eq (k : Option κ) : s.applyAt k = ((s.atOrBelow k).getLast?).bind (·.2) := by
  simp only [applyAt, legIndex, h.partitionPoint_eq hr hoff k]
  rcases List.eq_nil_or_concat (s.atOrBelow k) with h0 | ⟨L, b, hLb⟩
  · rw [h0]
    rfl
  · -- the entries at or below `k` stand first, and the last of them is at index `L.length`
    rw [List.concat_eq_append] at hLb
    have hsplit : s.entries = (L ++ [b]) ++ s.entries.dropWhile (fun e => PartialCompare.le e.1 k) := by
      rw [← hLb, ← h.takeWhile_eq_atOrBelow hr hoff, List.takeWhile_append_dropWhile]
    have hidx : s.entries[L.length]? = some b := by
      rw [hsplit, List.getElem?_append_left (by simp), List.getElem?_concat_length]
    simp [hLb, hidx]

/-- Oriented: `x` at or below `y` fall under one entry exactly when no key lies above `x` and at
or below `y`. -/
theorem Ordered.sameLeg_iff_of_le {x y : Option κ} (hx : AllGood good x) (hy : AllGood good y)
    (hxy : orank rank x ≤ orank rank y) :
    s.sameLeg x y = true ↔ ∀ k ∈ s.keys, ¬ (orank rank x < orank rank k ∧ orank rank k ≤ orank rank y) := by
  have hmono : ∀ e ∈ s.entries, PartialCompare.le e.1 x = true → PartialCompare.le e.1 y = true :=
    fun e he hex => hr.le_trans (h.allGood e he) hx hy hex ((hr.le_iff hx hy).2 hxy)
  rw [sameLeg, beq_iff_eq, h.legIndex_eq_iff hr hoff, atOrBelow, atOrBelow, length_filter_eq_iff hmono]
  simp only [keys, List.forall_mem_map]
  refine forall₂_congr fun e he => ?_
  rw [hr.le_iff (h.allGood e he) hy, hr.le_iff (h.allGood e he) hx, not_and, ← not_le]
  exact not_imp_not.symm

/-- **Two keys fall under one entry exactly when no key of the series lies above the lower and at
or below the higher.** -/
theorem Ordered.sameLeg_iff {x y : Option κ} (hx : AllGood good x) (hy : AllGood good y) :
    s.sameLeg x y = true ↔ ∀ k ∈ s.keys,
      ¬ (min (orank rank x) (orank rank y) < orank rank k ∧
        orank rank k ≤ max (orank rank x) (orank rank y)) := by
  rcases le_total (orank rank x) (orank rank y) with hxy | hyx
  · rw [min_eq_left hxy, max_eq_right hxy]
    exact h.sameLeg_iff_of_le hr hoff hx hy hxy
  · rw [min_eq_right hyx, max_eq_left hyx, sameLeg_comm]
    exact h.sameLeg_iff_of_le hr hoff hy hx hyx

end Ordered

/-! ## The default -/

section Default

variable [PartialCompare κ]

/-- **At the absent key, lookup gives the default value** of every series that passes the test of
`ofCleansed`, whatever its keys: only a default, which stands first, is at or below the absent key. -/
theorem Checked.applyAt_none {s : Series κ ν} (hs : s.Checked) : s.applyAt none = s.defaultValue := by
  obtain ⟨es⟩ := s
  cases es with
  | nil => rfl
  | cons e rest =>
    -- past the first entry every key is present
    have hkeyed : ∀ z ∈ rest, PartialCompare.le z.1 none = false := by
      intro z hz
      obtain ⟨i, hi, rfl⟩ := List.getElem_of_mem hz
      cases hzk : rest[i].1 with
      | some _ => rfl
      | none =>
        have h0 := hs.eq_zero_of_getElem_eq_none (i := i + 1) (by simpa [keys] using hi)
          (by simpa [keys] using hzk)
        omega
    obtain ⟨k, v⟩ := e
    cases k with
    | none =>
      have hpp : partitionPoint (fun e : Entry κ ν => PartialCompare.le e.1 none) ((none, v) :: rest) = 1 :=
        partitionPoint_append _ [(none, v)] rest (by simp) hkeyed
      simp only [applyAt, legIndex, hpp]
      rfl
    | some a =>
      have hpp : partitionPoint (fun e : Entry κ ν => PartialCompare.le e.1 none) ((some a, v) :: rest) = 0 :=
        partitionPoint_append _ [] ((some a, v) :: rest) (by simp) (by simpa using hkeyed)
      simp only [applyAt, legIndex, hpp]
      rfl

end Default

/-! ## Every series handed out -/

section Produced

variable [PartialCompare κ] [WeakEq κ] [WeakEq ν] [LinearOrder β] {good : κ → Prop} {rank : κ → β}

/-- **Lookup by bisection is a linear scan** on every series handed out whose keys are ranked:
at every key, absent or present, ranked or not, lookup gives the value of the last entry at or
below it (none when no entry is), and two ranked keys fall under one entry exactly when no key of
the series lies above the lower of them and at or below the higher. -/
theorem Produced.bisection_eq_scan (hr : RankedOn good rank) (hoff : IncomparableOff good)
    {s : Series κ ν} (hs : Produced s) (hgood : ∀ k ∈ s.keys, AllGood good k) :
    (∀ x : Option κ, s.applyAt x = ((s.atOrBelow x).getLast?).bind (·.2)) ∧
      ∀ x y : Option κ, AllGood good x → AllGood good y →
        (s.sameLeg x y = true ↔ ∀ k ∈ s.keys,
          ¬ (min (orank rank x) (orank rank y) < orank rank k ∧
            orank rank k ≤ max (orank rank x) (orank rank y))) := by
  have h := hs.ordered hr hgood
  exact ⟨h.applyAt_eq hr hoff, fun x y hx hy => h.sameLeg_iff hr hoff hx hy⟩

end Produced

/-- A series of doubles with a default: lookup reads its entries. -/
theorem bisection_eq_scan_doubles :
    RankedOn (fun x : Float => x.isNaN = false) Binary64.rank ∧
      IncomparableOff (fun x : Float => x.isNaN = false) ∧
      Produced (⟨[(none, some 0.0), (some 1.0, some 1.0), (some 2.0, some 3.0)]⟩ : Series Float Float) ∧
      (∀ k ∈ (⟨[(none, some 0.0), (some 1.0, some 1.0), (some 2.0, some 3.0)]⟩ : Series Float Float).keys,
        AllGood (fun x : Float => x.isNaN = false) k) ∧
      ((∀ x : Option Float,
          (⟨[(none, some 0.0), (some 1.0, some 1.0), (some 2.0, some 3.0)]⟩ : Series Float Float).applyAt x =
            (((⟨[(none, some 0.0), (some 1.0, some 1.0), (some 2.0, some 3.0)]⟩ :
              Series Float Float).atOrBelow x).getLast?).bind (·.2)) ∧
        ∀ x y : Option Float, AllGood (fun x : Float => x.isNaN = false) x →
          AllGood (fun x : Float => x.isNaN = false) y →
          ((⟨[(none, some 0.0), (some 1.0, some 1.0), (some 2.0, some 3.0)]⟩ : Series Float Float).sameLeg x y = true ↔
            ∀ k ∈ (⟨[(none, some 0.0), (some 1.0, some 1.0), (some 2.0, some 3.0)]⟩ : Series Float Float).keys,
              ¬ (min (orank Binary64.rank x) (orank Binary64.rank y) < orank Binary64.rank k ∧
                orank Binary64.rank k ≤ max (orank Binary64.rank x) (orank Binary64.rank y)))) := by
  have hs : Produced (⟨[(none, some 0.0), (some 1.0, some 1.0), (some 2.0, some 3.0)]⟩ : Series Float Float) :=
    Produced.build (show build Tolerance.exact
      [(none, some (0.0 : Float)), (some (1.0 : Float), some 1.0), (some 2.0, some 3.0)] = .ok ⟨_⟩ from rfl)
  have hgood : ∀ k ∈ (⟨[(none, some 0.0), (some 1.0, some 1.0), (some 2.0, some 3.0)]⟩ :
      Series Float Float).keys, AllGood (fun x : Float => x.isNaN = false) k := by decide
  exact ⟨Binary64.rankedOn_not_nan, Binary64.incomparableOff_nan, hs, hgood,
    Produced.bisection_eq_scan Binary64.rankedOn_not_nan Binary64.incomparableOff_nan hs hgood⟩

/-- Doubles keyed `1`, NaN, `2`: `build` accepts them in that order, and asked for `2` the
bisection lands on the entry keyed `1` and gives `1`, where the last entry at or below `2` is the
one keyed `2`, with value `3`. -/
theorem bisection_skips_past_nan :
    build Tolerance.exact
        [(some (1.0 : Float), some (1.0 : Float)), (some (0.0 / 0.0), some 2.0), (some 2.0, some 3.0)] =
      .ok ⟨[(some 1.0, some 1.0), (some (0.0 / 0.0), some 2.0), (some 2.0, some 3.0)]⟩ ∧
    (⟨[(some (1.0 : Float), some (1.0 : Float)), (some (0.0 / 0.0), some 2.0), (some 2.0, some 3.0)]⟩ :
        Series Float Float).apply 2.0 = some 1.0 ∧
    (((⟨[(some (1.0 : Float), some (1.0 : Float)), (some (0.0 / 0.0), some 2.0), (some 2.0, some 3.0)]⟩ :
        Series Float Float).atOrBelow (some 2.0)).getLast?).bind (·.2) = some 3.0 :=
  ⟨rfl, rfl, rfl⟩

end Series

end LazySeq
