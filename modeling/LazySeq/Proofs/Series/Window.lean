import LazySeq.Proofs.Series.Lookup

/-!
# Windows of a series

`Series.subSeries s low high` refuses bounds that are both given unless the first is below the
second; otherwise it keeps the entries from the one in force at `low` to the last one at or below
`high`. Both ends are bisections (`legIndex` and `partitionPoint`). On a series in key order with
ranked keys each end is a count of the entries at or below its bound (`Series.windowStart`,
`Series.windowStop`), the start never passes the stop, and the window keeps every value between
the bounds: at a key from `low` to `high`, the entries at or below the key that the window drops
come before the one in force there, which it keeps.

On doubles the ends need not be counts: a window cut from the keys `1, NaN, 2, 3` at `2` keeps
the entries keyed `1, NaN, 2`, and the bisection over those three, asked for `2`, lands on `1`.

**Main statement.** `Series.Produced.subSeries_restricts`; `Series.window_loses_value_past_nan` is the
window of doubles whose lookup differs from the series'.
-/

namespace LazySeq

variable {κ ν β : Type}

namespace Series

section Window

variable [PartialCompare κ] [LinearOrder β] {good : κ → Prop} {rank : κ → β}

/-- Where a window from `low` starts, counted: at the entry in force at `low`, the index of the
last entry at or below it; at the first entry when `low` is open or no entry is in force there. -/
def windowStart (s : Series κ ν) : Option κ → Nat
  | none => 0
  | some a => (s.atOrBelow (some a)).length - 1

/-- Where a window up to `high` stops, counted: past the last entry at or below `high`, past the
last entry when `high` is open. -/
def windowStop (s : Series κ ν) : Option κ → Nat
  | none => s.entries.length
  | some b => (s.atOrBelow (some b)).length

/-- **Only crossed bounds are refused**, with an invalid range: both given, the first not below
the second. -/
theorem subSeries_eq_error_iff (s : Series κ ν) (low high : Option κ) :
    (∃ msg, s.subSeries low high = .error (.invalidRange msg)) ↔
      ∃ a b, low = some a ∧ high = some b ∧ PartialCompare.lt a b = false := by
  cases low with
  | none => simp [subSeries, pure, Except.pure]
  | some a =>
    cases high with
    | none => simp [subSeries, pure, Except.pure]
    | some b =>
      cases hab : partialCompare a b with
      | none => simp [subSeries, PartialCompare.lt, hab, throw, throwThe, MonadExceptOf.throw]
      | some o =>
        cases o <;> simp [subSeries, PartialCompare.lt, hab, throw, throwThe, MonadExceptOf.throw, pure,
          Except.pure, bind, Except.bind]

variable {s : Series κ ν} (h : s.Ordered good rank)
include h

omit [PartialCompare κ] in
/-- A stretch of neighbouring entries of a series in key order is in key order. -/
theorem Ordered.window (i k : Nat) : (⟨(s.entries.drop i).take k⟩ : Series κ ν).Ordered good rank where
  strict := h.strict.sublist ((List.take_sublist k _).trans (List.drop_sublist i _))
  allGood e he := h.allGood e (((List.take_sublist k _).trans (List.drop_sublist i _)).subset he)

variable (hr : RankedOn good rank)
include hr

/-- Fewer entries are at or below a lower key. -/
theorem Ordered.length_atOrBelow_le {a b : Option κ} (ha : AllGood good a) (hb : AllGood good b)
    (hab : orank rank a ≤ orank rank b) : (s.atOrBelow a).length ≤ (s.atOrBelow b).length :=
  (filter_sublist_filter fun e he hea =>
    hr.le_trans (h.allGood e he) ha hb hea ((hr.le_iff ha hb).2 hab)).length_le

variable (hoff : IncomparableOff good)
include hoff

/-- Fewer entries are at or below a key than at or below a key above it, whatever the two keys:
keys that pass the test are ranked. -/
theorem Ordered.length_atOrBelow_mono {a b : κ} (hab : PartialCompare.le a b = true) :
    (s.atOrBelow (some a)).length ≤ (s.atOrBelow (some b)).length := by
  obtain ⟨ga, gb⟩ := hoff.good_of_le hab
  have ha : AllGood good (some a) := (allGood_some good a).2 ga
  have hb : AllGood good (some b) := (allGood_some good b).2 gb
  exact h.length_atOrBelow_le hr ha hb ((hr.le_iff ha hb).1 hab)

/-- The ends of a window that is not refused are the counts, and the start never passes the
stop. -/
theorem Ordered.subSeries_eq {low high : Option κ}
    (hlt : ∀ a b, low = some a → high = some b → PartialCompare.lt a b = true) :
    s.subSeries low high =
      .ok ⟨(s.entries.drop (s.windowStart low)).take (s.windowStop high - s.windowStart low)⟩ := by
  have hstart : ∀ a, (s.legIndex (some a)).getD 0 = s.windowStart (some a) := fun a =>
    h.legIndex_getD hr hoff (some a)
  cases low with
  | none =>
    cases high with
    | none => simp [subSeries, pure, Except.pure, windowStart, windowStop]
    | some b =>
      simp [subSeries, pure, Except.pure, windowStart, windowStop, h.partitionPoint_eq hr hoff]
  | some a =>
    have hle : s.windowStart (some a) ≤ s.windowStop high := by
      cases high with
      | none =>
        have := List.length_filter_le (fun e : Entry κ ν => PartialCompare.le e.1 (some a)) s.entries
        simp only [windowStart, windowStop, atOrBelow]
        omega
      | some b =>
        have := h.length_atOrBelow_mono hr hoff (PartialCompare.le_of_lt (hlt a b rfl rfl))
        simp only [windowStart, windowStop]
        omega
    cases high with
    | none =>
      simp only [subSeries, pure, Except.pure, hstart]
      rw [show max (s.entries.length) (s.windowStart (some a)) = s.windowStop none from
        max_eq_left hle]
    | some b =>
      have hab := hlt a b rfl rfl
      simp only [subSeries, PartialCompare.lt, beq_iff_eq] at hab ⊢
      simp only [hab, pure, Except.pure, hstart, h.partitionPoint_eq hr hoff]
      rw [show max (s.atOrBelow (some b)).length (s.windowStart (some a)) = s.windowStop (some b) from
        max_eq_left hle]

/-- **A window keeps the value at a key** when it starts at or before the entry in force there
and stops at or after it: the entries at or below the key that it drops come before that entry. -/
theorem Ordered.apply_window {i j : Nat} {x : κ} (hi : i ≤ (s.atOrBelow (some x)).length - 1)
    (hj : (s.atOrBelow (some x)).length ≤ j) :
    (⟨(s.entries.drop i).take (j - i)⟩ : Series κ ν).apply x = s.apply x := by
  set p : Entry κ ν → Bool := fun e => PartialCompare.le e.1 (some x) with hp
  set T := s.atOrBelow (some x) with hT
  have hsplit : s.entries = T ++ s.entries.dropWhile p := by
    rw [hT, ← h.takeWhile_eq_atOrBelow hr hoff, List.takeWhile_append_dropWhile]
  have hdrop : ∀ z ∈ s.entries.dropWhile p, p z = false :=
    forall_not_le_dropWhile hr hoff (some x) h.strict.keysSorted h.allGood
  have hpass : ∀ z ∈ T, p z = true := fun z hz => (List.mem_filter.1 hz).2
  -- the window is the tail of `T` from `i`, then a stretch of entries past `x`
  have hwin : (s.entries.drop i).take (j - i) =
      T.drop i ++ (s.entries.dropWhile p).take (j - i - (T.length - i)) := by
    rw [hsplit, List.drop_append_of_le_length (by omega), List.take_append,
      List.take_of_length_le (by simp; omega), List.length_drop, ← hsplit]
  have hfilter : ((s.entries.drop i).take (j - i)).filter p = T.drop i := by
    rw [hwin, List.filter_append,
      List.filter_eq_self.2 fun z hz => hpass z (List.mem_of_mem_drop hz),
      List.filter_eq_nil_iff.2 fun z hz => by simp [hdrop z (List.mem_of_mem_take hz)],
      List.append_nil]
  have hlast : (T.drop i).getLast? = T.getLast? := by
    rw [List.getLast?_drop]
    split
    · -- the window starts past the end of `T` only when `T` is empty
      have hT0 : T = [] := List.eq_nil_of_length_eq_zero (by omega)
      rw [hT0]
      rfl
    · rfl
  rw [apply, apply, (h.window i (j - i)).applyAt_eq hr hoff, h.applyAt_eq hr hoff]
  simp only [atOrBelow]
  rw [← hp, hfilter, hlast]
  rfl

end Window

/-! ## Every series handed out -/

section Produced

variable [PartialCompare κ] [WeakEq κ] [WeakEq ν] [LinearOrder β] {good : κ → Prop} {rank : κ → β}

/-- **Windows restrict a series without changing it between their bounds.** For every series
handed out whose keys are ranked and any bounds, absent or present: the window is refused, with
an invalid range, exactly when both bounds are given and the first is not below the second.
Otherwise it is the stretch of entries from the one in force at `low` (the first entry when `low`
is open or no entry is in force there) to the last one at or below `high` (the last entry when
`high` is open), and at every key from `low` to `high` it gives the value the series gives. -/
theorem Produced.subSeries_restricts (hr : RankedOn good rank) (hoff : IncomparableOff good)
    {s : Series κ ν} (hs : Produced s) (hgood : ∀ k ∈ s.keys, AllGood good k) (low high : Option κ) :
    ((∃ msg, s.subSeries low high = .error (.invalidRange msg)) ↔
        ∃ a b, low = some a ∧ high = some b ∧ PartialCompare.lt a b = false) ∧
      ((¬ ∃ a b, low = some a ∧ high = some b ∧ PartialCompare.lt a b = false) →
        ∃ r, s.subSeries low high = .ok r ∧
          r.entries = (s.entries.drop (s.windowStart low)).take (s.windowStop high - s.windowStart low) ∧
          ∀ x : κ, (∀ a ∈ low, PartialCompare.le a x = true) → (∀ b ∈ high, PartialCompare.le x b = true) →
            r.apply x = s.apply x) := by
  have h := hs.ordered hr hgood
  refine ⟨subSeries_eq_error_iff s low high, fun hok => ⟨_, h.subSeries_eq hr hoff ?_, rfl, ?_⟩⟩
  · intro a b ha hb
    cases hab : PartialCompare.lt a b with
    | true => rfl
    | false => exact absurd ⟨a, b, ha, hb, hab⟩ hok
  · intro x hlow hhigh
    -- the count at `x` lies between the two ends
    have hi : s.windowStart low ≤ (s.atOrBelow (some x)).length - 1 := by
      cases low with
      | none => exact Nat.zero_le _
      | some a =>
        have := h.length_atOrBelow_mono hr hoff (hlow a rfl)
        simp only [windowStart]
        omega
    have hj : (s.atOrBelow (some x)).length ≤ s.windowStop high := by
      cases high with
      | none => exact List.length_filter_le _ _
      | some b => exact h.length_atOrBelow_mono hr hoff (hhigh b rfl)
    exact h.apply_window hr hoff hi hj

end Produced

/-- The window from `5` to `15` of the library's own example series, words from a default up to `20`
with values `7`, `17` and none. -/
theorem subSeries_restricts_words :
    RankedOn (fun _ : Int64 => True) Int64.toInt ∧ IncomparableOff (fun _ : Int64 => True) ∧
      Produced (⟨[(none, none), (some 0, some 7), (some 10, some 17), (some 20, none)]⟩ :
        Series Int64 Int64) ∧
      (∀ k ∈ (⟨[(none, none), (some 0, some 7), (some 10, some 17), (some 20, none)]⟩ :
        Series Int64 Int64).keys, AllGood (fun _ : Int64 => True) k) ∧
      (((∃ msg, (⟨[(none, none), (some 0, some 7), (some 10, some 17), (some 20, none)]⟩ :
            Series Int64 Int64).subSeries (some 5) (some 15) = .error (.invalidRange msg)) ↔
          ∃ a b, some (5 : Int64) = some a ∧ some (15 : Int64) = some b ∧ PartialCompare.lt a b = false) ∧
        ((¬ ∃ a b, some (5 : Int64) = some a ∧ some (15 : Int64) = some b ∧ PartialCompare.lt a b = false) →
          ∃ r, (⟨[(none, none), (some 0, some 7), (some 10, some 17), (some 20, none)]⟩ :
              Series Int64 Int64).subSeries (some 5) (some 15) = .ok r ∧
            r.entries = (((⟨[(none, none), (some 0, some 7), (some 10, some 17), (some 20, none)]⟩ :
                Series Int64 Int64).entries.drop
                ((⟨[(none, none), (some 0, some 7), (some 10, some 17), (some 20, none)]⟩ :
                  Series Int64 Int64).windowStart (some 5))).take
              ((⟨[(none, none), (some 0, some 7), (some 10, some 17), (some 20, none)]⟩ :
                  Series Int64 Int64).windowStop (some 15) -
                (⟨[(none, none), (some 0, some 7), (some 10, some 17), (some 20, none)]⟩ :
                  Series Int64 Int64).windowStart (some 5))) ∧
            ∀ x : Int64, (∀ a ∈ some (5 : Int64), PartialCompare.le a x = true) →
              (∀ b ∈ some (15 : Int64), PartialCompare.le x b = true) →
              r.apply x = (⟨[(none, none), (some 0, some 7), (some 10, some 17), (some 20, none)]⟩ :
                Series Int64 Int64).apply x)) := by
  have hs : Produced (⟨[(none, none), (some 0, some 7), (some 10, some 17), (some 20, none)]⟩ :
      Series Int64 Int64) :=
    Produced.build (show build Tolerance.exact
      [((none : Option Int64), (none : Option Int64)), (some 0, some 7), (some 10, some 17), (some 20, none)] =
        .ok ⟨_⟩ from rfl)
  exact ⟨rankedOn_toInt, incomparableOff_true, hs, fun k _ => allGood_true k,
    Produced.subSeries_restricts rankedOn_toInt incomparableOff_true hs (fun k _ => allGood_true k)
      (some 5) (some 15)⟩

/-- Doubles keyed `1`, NaN, `2`, `3`, built in that order: the window up to `2` keeps the entries
keyed `1`, NaN and `2`, and gives `1` at `2` where the series gives `3`. -/
theorem window_loses_value_past_nan :
    build Tolerance.exact [(some (1.0 : Float), some (1.0 : Float)), (some (0.0 / 0.0), some 2.0),
        (some 2.0, some 3.0), (some 3.0, some 4.0)] =
      .ok ⟨[(some 1.0, some 1.0), (some (0.0 / 0.0), some 2.0), (some 2.0, some 3.0), (some 3.0, some 4.0)]⟩ ∧
    (⟨[(some (1.0 : Float), some (1.0 : Float)), (some (0.0 / 0.0), some 2.0), (some 2.0, some 3.0),
        (some 3.0, some 4.0)]⟩ : Series Float Float).subSeries none (some 2.0) =
      .ok ⟨[(some 1.0, some 1.0), (some (0.0 / 0.0), some 2.0), (some 2.0, some 3.0)]⟩ ∧
    (⟨[(some (1.0 : Float), some (1.0 : Float)), (some (0.0 / 0.0), some 2.0), (some 2.0, some 3.0)]⟩ :
        Series Float Float).apply 2.0 = some 1.0 ∧
    (⟨[(some (1.0 : Float), some (1.0 : Float)), (some (0.0 / 0.0), some 2.0), (some 2.0, some 3.0),
        (some 3.0, some 4.0)]⟩ : Series Float Float).apply 2.0 = some 3.0 :=
  ⟨rfl, rfl, rfl, rfl⟩

end Series

end LazySeq
