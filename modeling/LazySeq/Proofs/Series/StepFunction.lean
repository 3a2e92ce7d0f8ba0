import LazySeq.Proofs.Series.Cleanse
import LazySeq.Proofs.Series.Search
import Mathlib

/-!
# A built series is the step function of its observations

Observations describe a step function: at a key `x` holds the value of the last observation with
the greatest key at or below `x`, and below every key the value of the last default observation
(`Series.valueAt`); the key none asks for that default (`Series.defaultOf`).

`Series.build` gives this step function when the observations come in key order, the defaults
first, and weak equality is equality. Its lookup is a bisection over the entries
(`Series.applyAt_of_keysStrict`), cleansing keeps every value in force
(`Series.cleanse_keysSorted`), and the cleansed entries pass the checks of `ofCleansed` unchanged.

Out of key order the step function is lost: cleansing compares each observation with the one
kept before it in the order given, before the default moves to the front. A default after a
keyed observation with the same value is dropped as a repeat of that value.

**Main statement.** `Series.build_apply_eq_valueAt`; `Series.build_late_default_lost` is the
default dropped.
-/

namespace LazySeq

namespace Series

variable {κ ν β : Type} [LinearOrder β]

/-! ## The step function of observations -/

/-- Of the observations with a key at or below `x`, the last of those with the greatest key. -/
def lastGreatestAtOrBelow (rank : κ → β) (x : κ) : List (Entry κ ν) → Option (Entry κ ν)
  | [] => none
  | e :: es =>
    match lastGreatestAtOrBelow rank x es, e.1 with
    | some l, some a =>
      if orank rank l.1 < (rank a : WithBot β) ∧ rank a ≤ rank x then some e else some l
    | none, some a => if rank a ≤ rank x then some e else none
    | later, none => later

/-- The value of the last default observation, none without one. -/
def defaultOf (es : List (Entry κ ν)) : Option ν := ((es.filter (·.1.isNone)).getLast?).bind (·.2)

/-- The value the observations give at `x`: that of the last observation with the greatest key
at or below `x`, and below every key that of the last default. -/
def valueAt (rank : κ → β) (es : List (Entry κ ν)) (x : κ) : Option ν :=
  match lastGreatestAtOrBelow rank x es with
  | some e => e.2
  | none => defaultOf es

theorem lastGreatestAtOrBelow_mem {rank : κ → β} {x : κ} :
    ∀ {es : List (Entry κ ν)} {l : Entry κ ν}, lastGreatestAtOrBelow rank x es = some l →
      l ∈ es ∧ ∃ a, l.1 = some a ∧ rank a ≤ rank x
  | [], _, h => by simp [lastGreatestAtOrBelow] at h
  | e :: es, l, h => by
    simp only [lastGreatestAtOrBelow] at h
    split at h
    · rename_i l' a hl' ha
      split at h
      · rename_i hwin
        cases h
        exact ⟨List.mem_cons_self, a, ha, hwin.2⟩
      · cases h
        obtain ⟨hm, hk⟩ := lastGreatestAtOrBelow_mem hl'
        exact ⟨List.mem_cons_of_mem _ hm, hk⟩
    · rename_i a _ ha
      split at h
      · rename_i hax
        cases h
        exact ⟨List.mem_cons_self, a, ha, hax⟩
      · cases h
    · obtain ⟨hm, hk⟩ := lastGreatestAtOrBelow_mem h
      exact ⟨List.mem_cons_of_mem _ hm, hk⟩

/-! ## Entries with strictly increasing keys -/

section Strict

variable {rank : κ → β}

theorem length_le_one_of_keysStrict :
    ∀ {d : List (Entry κ ν)}, KeysStrict rank d → (∀ e ∈ d, e.1 = none) → d.length ≤ 1
  | [], _, _ => by simp
  | [_], _, _ => by simp
  | a :: b :: _, h, hnone => by
    have hab := List.rel_of_pairwise_cons h (List.mem_cons_self)
    simp [hnone a (by simp), hnone b (by simp)] at hab

/-- With strictly increasing keys, the defaults (at most one) come before the keyed entries. -/
theorem filter_isNone_append_filter_isSome :
    ∀ {cs : List (Entry κ ν)}, KeysStrict rank cs →
      cs.filter (·.1.isNone) ++ cs.filter (·.1.isSome) = cs
  | [], _ => rfl
  | e :: es, h => by
    cases he : e.1 with
    | none =>
      have ih := filter_isNone_append_filter_isSome h.of_cons
      simp [he, ih]
    | some a =>
      -- everything after a keyed entry has a greater key, so a key
      have hsome : ∀ f ∈ e :: es, f.1.isSome = true := by
        intro f hf
        rcases List.mem_cons.1 hf with rfl | hf'
        · simp [he]
        · have hef := List.rel_of_pairwise_cons h hf'
          rw [he, orank_some] at hef
          exact isSome_of_coe_le_orank hef.le
      rw [List.filter_eq_nil_iff.2 (fun f hf => by simp [Option.isNone_iff_eq_none,
        ← Option.not_isSome_iff_eq_none, hsome f hf]), List.filter_eq_self.2 hsome]
      rfl

end Strict

/-! ## The value in force, read off -/

section Lookup

variable [PartialCompare κ] {rank : κ → β}

@[simp] theorem le_none_eq (a : Option κ) : PartialCompare.le a none = a.isNone := by
  cases a <;> rfl

@[simp] theorem none_le (k : Option κ) : PartialCompare.le none k = true := by
  cases k <;> rfl

/-- At the key none only defaults are in force: the last one's value. -/
theorem inForce_none (es : List (Entry κ ν)) (before : Option ν) :
    inForce none before es = (((es.filter (·.1.isNone)).getLast?).map (·.2)).getD before := by
  rw [inForce_eq_getLast_filter]
  simp only [le_none_eq]

theorem defaultOf_eq_inForce (es : List (Entry κ ν)) : defaultOf es = inForce none none es := by
  rw [inForce_none, defaultOf]
  cases (es.filter (·.1.isNone)).getLast? <;> rfl

variable (hr : RankedOn (fun _ => True) rank)
include hr

theorem le_some_some_iff {a x : κ} : PartialCompare.le (some a) (some x) = true ↔ rank a ≤ rank x := by
  rw [hr.le_iff (allGood_true _) (allGood_true _)]
  simp

/-- **The value in force is the value the observations give**, for observations in key order:
the last of the greatest keys at or below `x` is the last entry at or below `x`, and without one
the defaults decide. -/
theorem inForce_some_eq {x : κ} :
    ∀ {es : List (Entry κ ν)}, KeysSorted rank es → ∀ before : Option ν,
      inForce (some x) before es =
        match lastGreatestAtOrBelow rank x es with
        | some l => l.2
        | none => inForce none before es
  | [], _, _ => rfl
  | e :: es, hs, before => by
    have hge : ∀ f ∈ es, orank rank e.1 ≤ orank rank f.1 := fun f hf => List.rel_of_pairwise_cons hs hf
    rw [inForce_cons, inForce_some_eq hs.of_cons]
    cases hl : lastGreatestAtOrBelow rank x es with
    | some l =>
      -- a later observation at or below `x` has a key at least `e`'s, so `e` does not win
      obtain ⟨hlm, -⟩ := lastGreatestAtOrBelow_mem hl
      have hel := hge l hlm
      cases he : e.1 with
      | none => simp [lastGreatestAtOrBelow, hl, he]
      | some c =>
        have hlose : ¬ orank rank l.1 < (rank c : WithBot β) := by
          rw [he, orank_some] at hel
          exact not_lt.2 hel
        simp [lastGreatestAtOrBelow, hl, he, hlose]
    | none =>
      cases he : e.1 with
      | none => simp [lastGreatestAtOrBelow, hl, he]
      | some c =>
        by_cases hcx : rank c ≤ rank x
        · -- `e` wins; every observation after it is keyed, so no default resets its value
          have hkeyed : ∀ f ∈ es, PartialCompare.le f.1 none = false := by
            intro f hf
            have hcf := hge f hf
            rw [he, orank_some] at hcf
            simpa using isSome_of_coe_le_orank hcf
          simp [lastGreatestAtOrBelow, hl, he, hcx, (le_some_some_iff hr).2 hcx,
            inForce_of_forall_not_le hkeyed]
        · have hcx' : PartialCompare.le (some c) (some x) = false :=
            Bool.eq_false_iff.2 fun h' => hcx ((le_some_some_iff hr).1 h')
          simp [lastGreatestAtOrBelow, hl, he, hcx, hcx']

theorem valueAt_eq_inForce {es : List (Entry κ ν)} (hs : KeysSorted rank es) (x : κ) :
    valueAt rank es x = inForce (some x) none es := by
  rw [inForce_some_eq hr hs, valueAt]
  cases lastGreatestAtOrBelow rank x es with
  | some l => rfl
  | none => exact defaultOf_eq_inForce es

/-- Past the first entry not at or below `k`, no entry is: keys only grow. -/
theorem not_le_of_mem_dropWhile {k : Option κ} :
    ∀ {c : List (Entry κ ν)}, KeysSorted rank c →
      ∀ z ∈ c.dropWhile (fun e => PartialCompare.le e.1 k), PartialCompare.le z.1 k = false
  | [], _ => by simp
  | a :: rest, hs => by
    by_cases ha : PartialCompare.le a.1 k = true
    · simp only [List.dropWhile_cons, ha, if_true]
      exact not_le_of_mem_dropWhile hs.of_cons
    · simp only [List.dropWhile_cons, ha, Bool.false_eq_true, if_false]
      intro z hz
      rcases List.mem_cons.1 hz with rfl | hz'
      · simpa using ha
      · cases hzk : PartialCompare.le z.1 k with
        | false => rfl
        | true => exact absurd (le_of_orank_le hr (List.rel_of_pairwise_cons hs hz') hzk) ha

/-- **Lookup reads the step function.** On entries with strictly increasing keys the bisection
lands on the last entry at or below the key asked for. -/
theorem applyAt_of_keysStrict {cs : List (Entry κ ν)} (h : KeysStrict rank cs) (k : Option κ) :
    (⟨cs⟩ : Series κ ν).applyAt k = inForce k none cs := by
  set p : Entry κ ν → Bool := fun e => PartialCompare.le e.1 k with hp
  have hdrop : ∀ z ∈ cs.dropWhile p, p z = false := not_le_of_mem_dropWhile hr h.keysSorted
  have hpp : partitionPoint p cs = (cs.takeWhile p).length := by
    have := partitionPoint_append p (cs.takeWhile p) (cs.dropWhile p)
      (fun y hy => List.mem_takeWhile_imp hy) hdrop
    rwa [List.takeWhile_append_dropWhile] at this
  have hin : inForce k none cs = inForce k none (cs.takeWhile p) :=
    calc inForce k none cs = inForce k none (cs.takeWhile p ++ cs.dropWhile p) := by
          rw [List.takeWhile_append_dropWhile]
      _ = inForce k (inForce k none (cs.takeWhile p)) (cs.dropWhile p) := inForce_append _ _ _
      _ = inForce k none (cs.takeWhile p) := inForce_of_forall_not_le hdrop
  simp only [applyAt, legIndex]
  rw [← hp, hpp, hin]
  rcases List.eq_nil_or_concat (cs.takeWhile p) with h0 | ⟨L, b, hLb⟩
  · rw [h0]
    rfl
  · rw [List.concat_eq_append] at hLb
    have hb : p b = true := List.mem_takeWhile_imp (hLb ▸ List.mem_concat_self)
    have hc : cs = (L ++ [b]) ++ cs.dropWhile p := by rw [← hLb, List.takeWhile_append_dropWhile]
    have hidx : cs[L.length]? = some b := by
      rw [hc, List.getElem?_append_left (by simp), List.getElem?_concat_length]
    rw [hLb, inForce_append_singleton hb]
    simp [hidx]

end Lookup

/-! ## Cleansed entries in key order pass the checks -/

section Checks

variable [PartialCompare κ] {good : κ → Prop} {rank : κ → β}

/-- Entries whose ranked keys strictly increase pass the checks of `ofCleansed` unchanged. -/
theorem ofCleansed_of_keysStrict (hr : RankedOn good rank) {cs : List (Entry κ ν)}
    (hgood : ∀ e ∈ cs, AllGood good e.1) (h : KeysStrict rank cs) : ofCleansed cs = .ok ⟨cs⟩ := by
  have hdef : (cs.filter (·.1.isNone)).length ≤ 1 :=
    length_le_one_of_keysStrict (h.sublist List.filter_sublist)
      fun e he => by simpa using (List.mem_filter.1 he).2
  have hchain : (cs.filter (·.1.isSome)).IsChain
      (fun a b : Entry κ ν => PartialCompare.ge a.1 b.1 = false) := by
    refine List.Pairwise.isChain ((h.sublist List.filter_sublist).imp_of_mem fun ha hb hab => ?_)
    rw [← Bool.not_eq_true, hr.ge_iff (hgood _ (List.mem_of_mem_filter ha))
      (hgood _ (List.mem_of_mem_filter hb))]
    exact not_le.2 hab
  have hkeyed := any_zip_tail_of_isChain (fun (a b : Entry κ ν) => PartialCompare.ge a.1 b.1) hchain
  simp only [ofCleansed]
  rw [if_neg (by omega), if_neg (by simpa using hkeyed), filter_isNone_append_filter_isSome h]

end Checks

/-! ## Building -/

section Build

variable [PartialCompare κ] [WeakEq κ] [WeakEq ν] {rank : κ → β}

/-- **A built series is the step function of its observations** when they come in key order
(keys that do not decrease, the defaults first) and weak equality is equality on keys and
values: `build` accepts them, gives at every key the value of the last observation with the
greatest key at or below it (below every key, that of the last default), and at the key none
the last default's value. -/
theorem build_apply_eq_valueAt {t : Tolerance} (hr : RankedOn (fun _ => True) rank)
    (hinj : Function.Injective rank) (hk : ExactOn t κ) (hv : ExactOn t ν)
    {es : List (Entry κ ν)} (hs : KeysSorted rank es) :
    ∃ s, build t es = .ok s ∧ (∀ x, s.apply x = valueAt rank es x) ∧
      s.applyAt none = defaultOf es := by
  obtain ⟨hstrict, hin⟩ := cleanse_keysSorted hr hinj hk hv hs
  refine ⟨⟨cleanse t es⟩, ofCleansed_of_keysStrict hr (fun _ _ => allGood_true _) hstrict, fun x => ?_,
    ?_⟩
  · rw [apply, applyAt_of_keysStrict hr hstrict, hin, valueAt_eq_inForce hr hs]
  · rw [applyAt_of_keysStrict hr hstrict, hin, defaultOf_eq_inForce]

end Build

/-! ## Word keys -/

theorem rankedOn_toInt : RankedOn (fun _ : Int64 => True) Int64.toInt := by
  intro a b _ _
  show some (compare a b) = some (compare a.toInt b.toInt)
  simp only [compare, compareOfLessAndEq, Int64.lt_iff_toInt_lt, ← Int64.toInt_inj]

theorem exactOn_int64 (t : Tolerance) : ExactOn t Int64 := fun _ _ => beq_iff_eq

/-- Word observations in key order, with a repeated key and a repeated value. -/
theorem build_apply_eq_valueAt_words :
    RankedOn (fun _ : Int64 => True) Int64.toInt ∧ Function.Injective Int64.toInt ∧
      ExactOn Tolerance.exact Int64 ∧
      KeysSorted Int64.toInt
        [((none : Option Int64), some (4 : Int64)), (some 1, some 5), (some 1, some 7), (some 3, some 7)] ∧
      ∃ s, build Tolerance.exact
          [((none : Option Int64), some (4 : Int64)), (some 1, some 5), (some 1, some 7), (some 3, some 7)] =
          .ok s ∧
        (∀ x, s.apply x = valueAt Int64.toInt
          [((none : Option Int64), some (4 : Int64)), (some 1, some 5), (some 1, some 7), (some 3, some 7)] x) ∧
        s.applyAt none = defaultOf
          [((none : Option Int64), some (4 : Int64)), (some 1, some 5), (some 1, some 7), (some 3, some 7)] :=
  ⟨rankedOn_toInt, fun _ _ => Int64.toInt_inj.1, exactOn_int64 _, by decide,
    build_apply_eq_valueAt rankedOn_toInt (fun _ _ => Int64.toInt_inj.1) (exactOn_int64 _)
      (exactOn_int64 _) (by decide)⟩

/-- A default after a keyed observation with the same value is dropped by cleansing: the series
built from `(1, 5)` and then the default `5` has no default, so below the key `1` and at the key
none it gives nothing where the observations give `5`. -/
theorem build_late_default_lost :
    build Tolerance.exact [(some (1 : Int64), some (5 : Int64)), (none, some 5)] =
        .ok ⟨[(some 1, some 5)]⟩ ∧
      (⟨[(some (1 : Int64), some (5 : Int64))]⟩ : Series Int64 Int64).apply 0 = none ∧
      valueAt Int64.toInt [(some (1 : Int64), some (5 : Int64)), (none, some 5)] 0 = some 5 ∧
      (⟨[(some (1 : Int64), some (5 : Int64))]⟩ : Series Int64 Int64).applyAt none = none ∧
      defaultOf [(some (1 : Int64), some (5 : Int64)), (none, some 5)] = some 5 :=
  ⟨rfl, rfl, by decide, rfl, rfl⟩

end Series

end LazySeq
