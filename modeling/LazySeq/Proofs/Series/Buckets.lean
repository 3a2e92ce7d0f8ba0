import Mathlib
import LazySeq.Proofs.Series.Ranked
import LazySeq.Proofs.Series.StepFunction
import LazySeq.Proofs.Stream.Retry
import LazySeq.Proofs.Stream.Yields
import LazySeq.Series.Compact

/-!
# Bucketing is aggregation over key intervals

`compact` reads samples whose keys never decrease and a second input of strictly increasing
bucket keys `b₀ < b₁ < …`. Bucket `j` holds the values, in input order, of the samples with key in
`[bⱼ, bⱼ₊₁)`, the last bucket having no bound above; each non-empty bucket is handed out as its
key and the aggregate of its values, in order (`bucket`).

The adapter is a loop over buckets with one sample held back. A pass of `fill` reads the samples
it can pass, dropping those below the bucket and keeping those below the next key, and holds back
the first sample at or past the next key (`Compact.fill_eq`). A pass of `advance` hands out the
bucket or, when it is empty, goes on to the next, and stops once the samples or the bucket keys
have run out. Between calls the adapter stands in one of three places (`Compact.Stands`): before
reading the next bucket key, past the end of the bucket keys, or at a bucket whose key is read.
From each, `advance` hands out the first of the buckets still to come and stands again where the
rest begin (`Compact.advance_rests`); the step from one bucket to the next is
`Compact.bucketsFrom_eq_fill`.

Main statement: `compact_eq_buckets`. For ranked keys, and bucket keys that end or pass every
sample key at some position `m`, every bucket from the `m`-th on is empty, and draining the adapter
within any budget beyond `m` and the number of samples gives exactly the non-empty buckets before
it. Keys that do not compare break this: a double that is not a number is neither below a bucket
key nor at or past one, so it lands in the bucket being filled (`compact_keeps_nan_sample`).
-/

namespace LazySeq

variable {σ τ α κ ν ω β : Type}

/-! ## Buckets of a list of samples -/

section Spec

variable [PartialCompare κ] {aggregate : List ν → ω} {bs : ℕ → Option κ} {m j : ℕ}
  {xs ys : List (κ × ν)}

/-- The values, in input order, of the samples whose key lies in `[lo, hi)`; with no `hi`, of all
those at or past `lo`. -/
def valuesIn (lo : κ) (hi : Option κ) (xs : List (κ × ν)) : List ν :=
  (xs.filter fun q => PartialCompare.le lo q.1 && hi.all (PartialCompare.lt q.1)).map Prod.snd

/-- Bucket `j` of the bucket keys `bs` over the samples `xs`, when it has a key and a value: its key
and the aggregate of its values. -/
def bucket (aggregate : List ν → ω) (bs : ℕ → Option κ) (xs : List (κ × ν)) (j : ℕ) :
    Option (κ × ω) :=
  (bs j).bind fun b =>
    if (valuesIn b (bs (j + 1)) xs).isEmpty then none
    else some (b, aggregate (valuesIn b (bs (j + 1)) xs))

/-- The non-empty buckets from the `j`-th to the one before the `m`-th, in order. -/
def bucketsFrom (aggregate : List ν → ω) (bs : ℕ → Option κ) (m j : ℕ) (xs : List (κ × ν)) :
    List (κ × ω) :=
  (List.range' j (m - j)).filterMap (bucket aggregate bs xs)

theorem valuesIn_append (lo : κ) (hi : Option κ) (xs ys : List (κ × ν)) :
    valuesIn lo hi (xs ++ ys) = valuesIn lo hi xs ++ valuesIn lo hi ys := by
  simp [valuesIn, List.filter_append]

theorem bucket_of_none (h : bs j = none) (xs : List (κ × ν)) : bucket aggregate bs xs j = none := by
  simp [bucket, h]

@[simp] theorem bucket_nil (aggregate : List ν → ω) (bs : ℕ → Option κ) (j : ℕ) :
    bucket aggregate bs ([] : List (κ × ν)) j = none := by
  cases h : bs j <;> simp [bucket, valuesIn, h]

theorem bucket_of_some {b : κ} (h : bs j = some b) (xs : List (κ × ν)) :
    bucket aggregate bs xs j =
      if (valuesIn b (bs (j + 1)) xs).isEmpty then none
      else some (b, aggregate (valuesIn b (bs (j + 1)) xs)) := by
  simp [bucket, h]

theorem bucketsFrom_of_le (h : m ≤ j) (xs : List (κ × ν)) : bucketsFrom aggregate bs m j xs = [] := by
  simp [bucketsFrom, Nat.sub_eq_zero_of_le h]

theorem bucketsFrom_of_lt (h : j < m) (xs : List (κ × ν)) :
    bucketsFrom aggregate bs m j xs =
      (bucket aggregate bs xs j).toList ++ bucketsFrom aggregate bs m (j + 1) xs := by
  obtain ⟨d, hd⟩ : ∃ d, m - j = d + 1 := ⟨m - j - 1, by omega⟩
  have hd' : m - (j + 1) = d := by omega
  rw [bucketsFrom, bucketsFrom, hd, hd', List.range'_succ, List.filterMap_cons]
  cases bucket aggregate bs xs j <;> rfl

theorem bucketsFrom_eq_nil (h : ∀ k, j ≤ k → bucket aggregate bs xs k = none) :
    bucketsFrom aggregate bs m j xs = [] := by
  rw [bucketsFrom, List.filterMap_eq_nil_iff]
  intro k hk
  exact h k (List.mem_range'_1.1 hk).1

theorem bucketsFrom_congr (h : ∀ k, j ≤ k → bucket aggregate bs xs k = bucket aggregate bs ys k) :
    bucketsFrom aggregate bs m j xs = bucketsFrom aggregate bs m j ys :=
  List.filterMap_congr fun k hk => h k (List.mem_range'_1.1 hk).1

@[simp] theorem bucketsFrom_nil : bucketsFrom aggregate bs m j ([] : List (κ × ν)) = [] :=
  bucketsFrom_eq_nil fun k _ => bucket_nil aggregate bs k

end Spec

/-! ## Bucket keys and samples in order -/

/-- Bucket keys, one per position, that are good, strictly increase in rank, and once ended stay
ended. -/
structure BucketKeys [LinearOrder β] (good : κ → Prop) (rank : κ → β) (bs : ℕ → Option κ) :
    Prop where
  key_good : ∀ {j b}, bs j = some b → good b
  rank_lt_succ : ∀ {j b c}, bs j = some b → bs (j + 1) = some c → rank b < rank c
  none_succ : ∀ {j}, bs j = none → bs (j + 1) = none

/-- Samples whose keys are all good and never decrease in rank. -/
structure SortedKeys [LinearOrder β] (good : κ → Prop) (rank : κ → β) (xs : List (κ × ν)) :
    Prop where
  key_good : ∀ q ∈ xs, good q.1
  sorted : xs.Pairwise fun q r => rank q.1 ≤ rank r.1

section Keys

variable [LinearOrder β] {good : κ → Prop} {rank : κ → β} {bs : ℕ → Option κ}

namespace BucketKeys

variable (h : BucketKeys good rank bs)
include h

theorem none_of_le {j k : ℕ} (hj : bs j = none) (hk : j ≤ k) : bs k = none := by
  induction k, hk using Nat.le_induction with
  | base => exact hj
  | succ k _ ih => exact h.none_succ ih

theorem rank_le {j k : ℕ} {b c : κ} (hb : bs j = some b) (hc : bs k = some c) (hk : j ≤ k) :
    rank b ≤ rank c := by
  induction k, hk using Nat.le_induction generalizing c with
  | base =>
    rw [hb, Option.some.injEq] at hc
    rw [hc]
  | succ k _ ih =>
    cases hk' : bs k with
    | none => rw [h.none_succ hk'] at hc; cases hc
    | some c' => exact (ih hk').trans (h.rank_lt_succ hk' hc).le

end BucketKeys

/-- The keys of a list that strictly increases are bucket keys. -/
theorem bucketKeys_ofList {keys : List κ} (hgood : ∀ b ∈ keys, good b)
    (hlt : keys.IsChain fun b c => rank b < rank c) : BucketKeys good rank fun j => keys[j]? where
  key_good hb := hgood _ (List.mem_of_getElem? hb)
  rank_lt_succ := by
    intro j b c hb hc
    obtain ⟨hj, rfl⟩ := List.getElem?_eq_some_iff.1 hc
    rw [List.getElem?_eq_getElem (by omega), Option.some.injEq] at hb
    rw [← hb]
    exact hlt.getElem j hj
  none_succ hj := by
    rw [List.getElem?_eq_none_iff] at hj ⊢
    omega

theorem SortedKeys.of_suffix {xs ys : List (κ × ν)} (h : SortedKeys good rank xs) (hs : ys <:+ xs) :
    SortedKeys good rank ys :=
  ⟨fun q hq => h.key_good q (hs.subset hq), h.sorted.sublist hs.sublist⟩

/-- Past a position whose key passes every sample key, every bucket key does. -/
theorem rank_lt_of_le {m j : ℕ} {b : κ} {xs : List (κ × ν)} {q : κ × ν}
    (hbs : BucketKeys good rank bs) (hm : ∀ c ∈ bs m, ∀ q ∈ xs, rank q.1 < rank c) (hjm : m ≤ j)
    (hb : bs j = some b) (hq : q ∈ xs) : rank q.1 < rank b := by
  cases hbm : bs m with
  | none => rw [hbs.none_of_le hbm hjm] at hb; cases hb
  | some c => exact (hm c hbm q hq).trans_le (hbs.rank_le hbm hb hjm)

end Keys

section RankedValues

variable [PartialCompare κ] [LinearOrder β] {good : κ → Prop} {rank : κ → β}
  (hr : RankedOn good rank)
include hr

/-- No sample below `lo` has a value from `lo` on. -/
theorem valuesIn_of_lt {lo : κ} {hi : Option κ} {l : List (κ × ν)} (hlo : good lo)
    (h : ∀ q ∈ l, good q.1 ∧ rank q.1 < rank lo) : valuesIn lo hi l = [] := by
  rw [valuesIn, List.filter_eq_nil_iff.2, List.map_nil]
  intro q hq
  obtain ⟨hgq, hlt⟩ := h q hq
  have hle : PartialCompare.le lo q.1 = false := by
    rw [Bool.eq_false_iff]
    exact fun hle => absurd ((hr.le_iff_rank hlo hgq).1 hle) (not_le.2 hlt)
  simp [hle]

/-- No sample at or past `hi` has a value below `hi`. -/
theorem valuesIn_of_ge {lo hi : κ} {l : List (κ × ν)} (hhi : good hi)
    (h : ∀ q ∈ l, good q.1 ∧ rank hi ≤ rank q.1) : valuesIn lo (some hi) l = [] := by
  rw [valuesIn, List.filter_eq_nil_iff.2, List.map_nil]
  intro q hq
  obtain ⟨hgq, hle⟩ := h q hq
  have hlt : PartialCompare.lt q.1 hi = false := by
    rw [Bool.eq_false_iff]
    exact fun hlt => absurd ((hr.lt_iff_rank hgq hhi).1 hlt) (not_lt.2 hle)
  simp [hlt]

end RankedValues

/-! ## Samples and bucket keys as inputs -/

/-- Samples and bucket keys read from one state. From a state related by `R` to the samples `xs`
still to come and the number `j` of bucket keys read, the samples behave as `xs`, and a read of
the bucket keys hands out the `j`-th of `bs`, or the end, and leaves the samples as they are. -/
structure Compact.Inputs (samples : Feed σ (κ × ν)) (buckets : Feed σ κ) (bs : ℕ → Option κ)
    (R : σ → List (κ × ν) → ℕ → Prop) : Prop where
  samples_yield : ∀ j, samples.Yields fun s xs => R s xs j
  buckets_pull : ∀ {s xs j}, R s xs j → ∃ s', buckets.pull s = (.ok (bs j), s') ∧ R s' xs (j + 1)

theorem Feed.pull_onRight (f : Feed τ α) (s : σ) (t : τ) :
    (f.onRight : Feed (σ × τ) α).pull (s, t) = ((f.pull t).1, (s, (f.pull t).2)) := by
  have hh : (f.onRight : Feed (σ × τ) α).hasNext (s, t) = ((f.hasNext t).1, (s, (f.hasNext t).2)) :=
    rfl
  have ht : ∀ t', (f.onRight : Feed (σ × τ) α).tryNext (s, t') =
      ((f.tryNext t').1, (s, (f.tryNext t').2)) := fun _ => rfl
  simp only [Feed.pull, hh]
  rcases f.hasNext t with ⟨(h | (_ | _)), t₁⟩
  · rfl
  · rfl
  · simp only [ht]
    rcases f.tryNext t₁ with ⟨r, t₂⟩
    cases r with
    | ok a => rfl
    | error h =>
      cases h with
      | abort r => rfl
      | fail e => cases e <;> rfl

/-- An input on the left of a pair of states yields what it yields alone, whatever the right
holds. -/
theorem Feed.Yields.onLeft {f : Feed σ α} {R : σ → List α → Prop} (h : f.Yields R) (Q : τ → Prop) :
    (f.onLeft : Feed (σ × τ) α).Yields fun p xs => R p.1 xs ∧ Q p.2 where
  hasNext := by
    rintro ⟨s, t⟩ xs ⟨hs, ht⟩
    obtain ⟨s', hh, hs'⟩ := h.hasNext hs
    exact ⟨(s', t), by simp [Feed.onLeft, Feed.focus, hh], hs', ht⟩
  tryNext := by
    rintro ⟨s, t⟩ a xs ⟨hs, ht⟩
    obtain ⟨s', hn, hs'⟩ := h.tryNext hs
    exact ⟨(s', t), by simp [Feed.onLeft, Feed.focus, hn], hs', ht⟩

/-- Samples and bucket keys from two separate states. -/
theorem Compact.inputs_onLeft_onRight {samples : Feed σ (κ × ν)} {buckets : Feed τ κ}
    {bs : ℕ → Option κ} {Rs : σ → List (κ × ν) → Prop} {Rb : τ → ℕ → Prop}
    (hs : samples.Yields Rs)
    (hb : ∀ {t j}, Rb t j → ∃ t', buckets.pull t = (.ok (bs j), t') ∧ Rb t' (j + 1)) :
    Compact.Inputs samples.onLeft buckets.onRight bs fun p xs j => Rs p.1 xs ∧ Rb p.2 j where
  samples_yield j := hs.onLeft fun t => Rb t j
  buckets_pull := by
    rintro ⟨s, t⟩ xs j ⟨hxs, ht⟩
    obtain ⟨t', hp, ht'⟩ := hb ht
    exact ⟨(s, t'), by rw [Feed.pull_onRight, hp], hxs, ht'⟩

/-- Samples and bucket keys held in two lists. -/
theorem Compact.inputs_ofList (keys : List κ) :
    Compact.Inputs (Feed.ofList.onLeft : Feed (List (κ × ν) × List κ) (κ × ν)) Feed.ofList.onRight
      (fun j => keys[j]?) fun p xs j => p.1 = xs ∧ p.2 = keys.drop j := by
  refine @Compact.inputs_onLeft_onRight _ _ _ _ _ _ _ _ (fun t j => t = keys.drop j)
    Feed.yields_ofList ?_
  rintro t j rfl
  obtain ⟨t', hp, rfl⟩ := Feed.yields_ofList.pull (rfl : keys.drop j = keys.drop j)
  exact ⟨_, by rw [hp, List.head?_drop], List.tail_drop⟩

/-! ## One pass of `fill` -/

namespace Compact

section Reads

variable {samples : Feed σ (κ × ν)} {R : σ → List (κ × ν) → Prop}

theorem with_pending_of_none {st : Compact κ ν ω} (h : st.pending = none) :
    { st with pending := none } = st := by
  cases st
  simp_all

/-- Whether samples remain after `fill`: the held-back sample says so, or else the samples. -/
theorem more_eq (hin : samples.Yields R) {s : σ} {rem : List (κ × ν)} (hs : R s rem.tail) :
    ∃ s', (if rem.head?.isSome then ((.ok true : Outcome Bool), s) else samples.hasNext s) =
        (.ok !rem.isEmpty, s') ∧ R s' rem.tail := by
  cases rem with
  | nil => simpa using hin.hasNext hs
  | cons q rest => exact ⟨s, by simp, hs⟩

end Reads

variable [PartialCompare κ]

/-- Whether `fill` reads on past a sample with key `k`: the sample lies below the bucket and is
dropped, or it is not at or past the next bucket key. -/
def readsPast (start : κ) (stop : Option κ) (k : κ) : Bool :=
  PartialCompare.lt k start || !(stop.map (PartialCompare.ge k)).getD false

/-- The values `fill` adds to the bucket `[start, stop)` from the samples `rem`: those of the
samples it reads past that it does not drop. -/
def filled (start : κ) (stop : Option κ) (rem : List (κ × ν)) : List ν :=
  ((rem.takeWhile (readsPast start stop ·.1)).filter (!PartialCompare.lt ·.1 start)).map Prod.snd

/-- The samples `fill` leaves: the first it does not read past, which it holds back, and all
after it. -/
def leftAfter (start : κ) (stop : Option κ) (rem : List (κ × ν)) : List (κ × ν) :=
  rem.dropWhile (readsPast start stop ·.1)

section Fill

variable {start : κ} {stop : Option κ}

theorem filled_cons (q : κ × ν) (rem : List (κ × ν)) :
    filled start stop (q :: rem) =
      if readsPast start stop q.1 then
        (if PartialCompare.lt q.1 start then [] else [q.2]) ++ filled start stop rem
      else [] := by
  by_cases hr : readsPast start stop q.1 <;> by_cases hl : PartialCompare.lt q.1 start <;>
    simp [filled, hr, hl]

theorem leftAfter_cons (q : κ × ν) (rem : List (κ × ν)) :
    leftAfter start stop (q :: rem) =
      if readsPast start stop q.1 then leftAfter start stop rem else q :: rem := by
  by_cases hr : readsPast start stop q.1 <;> simp [leftAfter, hr]

theorem leftAfter_suffix {rem : List (κ × ν)} : leftAfter start stop rem <:+ rem :=
  List.dropWhile_suffix _

/-- The samples left begin with one that `fill` does not read past. -/
theorem readsPast_head_leftAfter {q : κ × ν} {rest : List (κ × ν)} :
    ∀ {rem : List (κ × ν)}, leftAfter start stop rem = q :: rest → readsPast start stop q.1 = false
  | [], h => by simp [leftAfter] at h
  | q' :: rem, h => by
    rw [leftAfter_cons] at h
    split at h
    · exact readsPast_head_leftAfter h
    · rename_i hq
      rw [List.cons.injEq] at h
      rw [← h.1]
      simpa using hq

variable {samples : Feed σ (κ × ν)} {R : σ → List (κ × ν) → Prop}

/-- One read of `fill`: the sample held back if there is one, else the next of the samples. -/
theorem fill_succ (hin : samples.Yields R) (start : κ) (stop : Option κ) (fuel : ℕ)
    {st : Compact κ ν ω} {s : σ} {ys : List (κ × ν)} {k : κ} {v : ν} {rem : List (κ × ν)}
    (hs : R s ys) (hrem : st.pending.toList ++ ys = (k, v) :: rem) :
    ∃ s', R s' rem ∧ fill samples start stop (fuel + 1) st s =
      if PartialCompare.lt k start then fill samples start stop fuel { st with pending := none } s'
      else if (stop.map (PartialCompare.ge k)).getD false then
        (.ok (), { st with pending := some (k, v) }, s')
      else fill samples start stop fuel { st with pending := none, values := st.values ++ [v] } s' := by
  cases hp : st.pending with
  | none =>
    rw [hp, Option.toList_none, List.nil_append] at hrem
    subst hrem
    obtain ⟨s', hpull, hs'⟩ := hin.pull hs
    refine ⟨s', hs', ?_⟩
    rw [with_pending_of_none hp]
    simp only [fill, hp, hpull, List.head?_cons]
  | some q =>
    rw [hp, Option.toList_some, List.singleton_append, List.cons.injEq] at hrem
    obtain ⟨rfl, rfl⟩ := hrem
    exact ⟨s, hs, by simp only [fill, hp]⟩

/-- **One pass of `fill`.** Within a budget beyond the samples still to come, the held-back one
first, `fill` adds the values it reads past and does not drop, and holds back the first sample
it does not read past. -/
theorem fill_eq (hin : samples.Yields R) (start : κ) (stop : Option κ) (rem : List (κ × ν)) :
    ∀ (fuel : ℕ) (st : Compact κ ν ω) {s : σ} {ys : List (κ × ν)},
      R s ys → st.pending.toList ++ ys = rem → rem.length < fuel →
      ∃ s', fill samples start stop fuel st s =
          (.ok (), { st with pending := (leftAfter start stop rem).head?
                             values := st.values ++ filled start stop rem }, s') ∧
        R s' (leftAfter start stop rem).tail := by
  induction rem with
  | nil =>
    intro fuel st s ys hs hrem hfuel
    obtain ⟨f, rfl⟩ : ∃ f, fuel = f + 1 := ⟨fuel - 1, by simp at hfuel; omega⟩
    have hp : st.pending = none := by cases h : st.pending <;> simp_all
    have hys : ys = [] := by simp_all
    subst hys
    obtain ⟨s', hpull, hs'⟩ := hin.pull hs
    refine ⟨s', ?_, hs'⟩
    rw [← with_pending_of_none hp]
    simp [fill, hpull, leftAfter, filled]
  | cons q rem ih =>
    intro fuel st s ys hs hrem hfuel
    obtain ⟨f, rfl⟩ : ∃ f, fuel = f + 1 := ⟨fuel - 1, by simp at hfuel; omega⟩
    have hlen : rem.length < f := by simpa using hfuel
    obtain ⟨k, v⟩ := q
    obtain ⟨s₁, hs₁, hstep⟩ := fill_succ hin start stop f hs hrem
    rw [hstep, leftAfter_cons, filled_cons]
    by_cases hlt : PartialCompare.lt k start = true
    · -- below the bucket: dropped
      have hr : readsPast start stop k = true := by simp [readsPast, hlt]
      obtain ⟨s', hf, hs'⟩ := ih f { st with pending := none } hs₁ (by simp) hlen
      refine ⟨s', ?_, ?_⟩
      · simp only [hlt, hr, if_true, List.nil_append]
        rw [hf]
      · simpa [hr] using hs'
    · by_cases hge : (stop.map (PartialCompare.ge k)).getD false = true
      · -- at or past the next key: held back
        have hr : readsPast start stop k = false := by simp [readsPast, hlt, hge]
        refine ⟨s₁, ?_, by simpa [hr] using hs₁⟩
        simp [hlt, hge, hr]
      · -- in the bucket: kept
        have hr : readsPast start stop k = true := by simp [readsPast, hge]
        obtain ⟨s', hf, hs'⟩ := ih f { st with pending := none, values := st.values ++ [v] } hs₁
          (by simp) hlen
        refine ⟨s', ?_, by simpa [hr] using hs'⟩
        simp only [hlt, hge, hr, if_true, Bool.false_eq_true, if_false]
        rw [hf]
        simp

end Fill

/-! ## The pass of `advance` -/

section Advance

variable {aggregate : List ν → ω} {samples : Feed σ (κ × ν)} {buckets : Feed σ κ} {fuel : ℕ}
  {s s₁ s₂ s₃ : σ} {p : Option (κ × ν)} {vs : List ν} {bf : Lookahead (κ × ω)}

/-- At a bucket whose key is read, `advance` reads the next key, fills the bucket and asks whether
samples remain; then it hands out the bucket, stops, or goes on to the next. -/
theorem advance_at_bucket {b : κ} {next : Option κ} {st : Compact κ ν ω} {more : Bool}
    (hpull : buckets.pull s = (.ok next, s₁))
    (hfill : fill samples b next fuel ⟨p, some b, some next, vs, bf⟩ s₁ = (.ok (), st, s₂))
    (hmore : (if st.pending.isSome then (.ok true, s₂) else samples.hasNext s₂) = (.ok more, s₃)) :
    advance aggregate samples buckets (fuel + 1) ⟨p, some b, none, vs, bf⟩ s =
      if !st.values.isEmpty then
        (.ok (some (b, aggregate st.values)), { st with start := next, stop := none, values := [] },
          s₃)
      else if !more || next.isNone then (.ok none, { st with start := next, stop := none }, s₃)
      else advance aggregate samples buckets fuel { st with start := next, stop := none } s₃ := by
  simp only [advance, Option.isSome_some, if_true, Option.isSome_none, Bool.false_eq_true,
    if_false, hpull, hfill, hmore]

/-- Before a bucket key is read, `advance` reads it, and goes on from there when there is one. -/
theorem advance_read_key {b : κ} {stop : Option (Option κ)}
    (hpull : buckets.pull s = (.ok (some b), s₁)) :
    advance aggregate samples buckets (fuel + 1) ⟨p, none, stop, vs, bf⟩ s =
      advance aggregate samples buckets (fuel + 1) ⟨p, some b, stop, vs, bf⟩ s₁ := by
  simp only [advance, Option.isSome_none, Option.isSome_some, Bool.false_eq_true, if_false,
    if_true, hpull]

/-- With no bucket key left, `advance` finds nothing; it reads the key after the end once. -/
theorem advance_no_key {next : Option κ} (hpull : buckets.pull s = (.ok none, s₁))
    (hpull₂ : buckets.pull s₁ = (.ok next, s₂)) :
    advance aggregate samples buckets (fuel + 1) ⟨p, none, none, vs, bf⟩ s =
      (.ok none, ⟨p, none, some next, vs, bf⟩, s₂) := by
  simp only [advance, Option.isSome_none, Bool.false_eq_true, if_false, hpull, hpull₂]

/-- Past the end, `advance` reads the bucket keys once more and finds nothing. -/
theorem advance_past_end (hpull : buckets.pull s = (.ok none, s₁)) :
    advance aggregate samples buckets (fuel + 1) ⟨p, none, some none, vs, bf⟩ s =
      (.ok none, ⟨p, none, some none, vs, bf⟩, s₁) := by
  simp only [advance, Option.isSome_none, Option.isSome_some, Bool.false_eq_true, if_false,
    if_true, hpull]

end Advance

/-! ## Buckets as `fill` finds them -/

section Ranked

variable [LinearOrder β] {good : κ → Prop} {rank : κ → β} (hr : RankedOn good rank)
include hr

/-- A sample that `fill` reads past lies below the next bucket key, when the bucket's key does. -/
theorem rank_lt_of_readsPast {b c : κ} {q : κ × ν} (hq : good q.1) (hb : good b) (hc : good c)
    (hbc : rank b < rank c) (h : readsPast b (some c) q.1 = true) : rank q.1 < rank c := by
  simp only [readsPast, Option.map_some, Option.getD_some, Bool.or_eq_true,
    Bool.not_eq_true'] at h
  rcases h with h | h
  · exact ((hr.lt_iff_rank hq hb).1 h).trans hbc
  · exact lt_of_not_ge fun hle => by simp [(hr.ge_iff_rank hq hc).2 hle] at h

/-- The samples left after `fill` lie at or past the next bucket key. -/
theorem rank_le_of_mem_leftAfter {b c : κ} {rem : List (κ × ν)} {q : κ × ν}
    (hrem : SortedKeys good rank rem) (hc : good c) (hq : q ∈ leftAfter b (some c) rem) :
    good q.1 ∧ rank c ≤ rank q.1 := by
  cases hl : leftAfter b (some c) rem with
  | nil => rw [hl] at hq; cases hq
  | cons q₀ rest =>
    rw [hl] at hq
    have hleft : SortedKeys good rank (q₀ :: rest) := by
      rw [← hl]
      exact hrem.of_suffix leftAfter_suffix
    have hgq₀ : good q₀.1 := hleft.key_good q₀ List.mem_cons_self
    -- the first sample left is at or past the next key, and the others are at or past it
    have hc₀ : rank c ≤ rank q₀.1 := by
      have h₀ := readsPast_head_leftAfter hl
      simp only [readsPast, Option.map_some, Option.getD_some, Bool.or_eq_false_iff,
        Bool.not_eq_false'] at h₀
      exact (hr.ge_iff_rank hgq₀ hc).1 h₀.2
    refine ⟨hleft.key_good q hq, ?_⟩
    rcases List.mem_cons.1 hq with rfl | hq
    · exact hc₀
    · exact hc₀.trans (List.rel_of_pairwise_cons hleft.sorted hq)

/-- Over samples in order, the values `fill` adds to a bucket are the bucket's values. -/
theorem valuesIn_eq_filled {b : κ} {next : Option κ} {rem : List (κ × ν)}
    (hrem : SortedKeys good rank rem) (hb : good b) (hnext : ∀ c ∈ next, good c ∧ rank b < rank c) :
    valuesIn b next rem = filled b next rem := by
  have hsplit : rem.takeWhile (readsPast b next ·.1) ++ leftAfter b next rem = rem :=
    List.takeWhile_append_dropWhile
  -- the samples left hold no value of the bucket
  have hleft : valuesIn b next (leftAfter b next rem) = [] := by
    cases next with
    | none =>
      rw [leftAfter, List.dropWhile_eq_nil_iff.2 fun q _ => by simp [readsPast]]
      rfl
    | some c =>
      obtain ⟨hc, -⟩ := hnext c rfl
      exact valuesIn_of_ge hr hc fun q hq => rank_le_of_mem_leftAfter hr hrem hc hq
  conv_lhs => rw [← hsplit]
  rw [valuesIn_append, hleft, List.append_nil, valuesIn, filled]
  congr 1
  apply List.filter_congr
  intro q hq
  have hqr : readsPast b next q.1 = true := by simpa using List.mem_takeWhile_imp hq
  have hgq : good q.1 := hrem.key_good q ((List.takeWhile_prefix _).subset hq)
  by_cases hlt : PartialCompare.lt q.1 b = true
  · -- below the bucket: neither in its interval nor kept
    have hle : PartialCompare.le b q.1 = false := by
      rw [Bool.eq_false_iff]
      exact fun hle => absurd ((hr.lt_iff_rank hgq hb).1 hlt) (not_lt.2 ((hr.le_iff_rank hb hgq).1 hle))
    simp [hlt, hle]
  · -- read past and not below the bucket: below the next key
    have hle : PartialCompare.le b q.1 = true :=
      (hr.le_iff_rank hb hgq).2 (not_lt.1 fun h => hlt ((hr.lt_iff_rank hgq hb).2 h))
    have hall : next.all (PartialCompare.lt q.1) = true := by
      cases next with
      | none => rfl
      | some c =>
        obtain ⟨hc, hbc⟩ := hnext c rfl
        exact (hr.lt_iff_rank hgq hc).2 (rank_lt_of_readsPast hr hgq hb hc hbc hqr)
    simp [hlt, hle, hall]

/-- Over samples all below the bucket, `fill` drops them all and keeps nothing. -/
theorem filled_of_below {b : κ} {next : Option κ} {rem : List (κ × ν)} (hb : good b)
    (h : ∀ q ∈ rem, good q.1 ∧ rank q.1 < rank b) :
    filled b next rem = [] ∧ leftAfter b next rem = [] := by
  have hlt : ∀ q ∈ rem, PartialCompare.lt q.1 b = true :=
    fun q hq => (hr.lt_iff_rank (h q hq).1 hb).2 (h q hq).2
  have hpast : ∀ q ∈ rem, readsPast b next q.1 = true := fun q hq => by simp [readsPast, hlt q hq]
  refine ⟨?_, List.dropWhile_eq_nil_iff.2 hpast⟩
  rw [filled, List.takeWhile_eq_self_iff.2 hpast, List.filter_eq_nil_iff.2, List.map_nil]
  intro q hq
  simp [hlt q hq]

end Ranked

/-! ## One bucket at a time -/

section Step

variable [LinearOrder β] {good : κ → Prop} {rank : κ → β} {aggregate : List ν → ω}
  {bs : ℕ → Option κ} {m j : ℕ} {b : κ} {xs rem : List (κ × ν)}
  (hr : RankedOn good rank) (hbs : BucketKeys good rank bs)
include hr hbs

/-- The buckets after the `j`-th do not see the samples `fill` reads past in bucket `j`. -/
theorem bucket_leftAfter (hrem : SortedKeys good rank rem) (hb : bs j = some b) {k : ℕ}
    (hk : j + 1 ≤ k) :
    bucket aggregate bs rem k = bucket aggregate bs (leftAfter b (bs (j + 1)) rem) k := by
  cases hd : bs k with
  | none => rw [bucket_of_none hd, bucket_of_none hd]
  | some d =>
    cases hc : bs (j + 1) with
    | none => rw [hbs.none_of_le hc hk] at hd; cases hd
    | some c =>
      have hgc := hbs.key_good hc
      have hcd : rank c ≤ rank d := hbs.rank_le hc hd hk
      have hsplit : rem.takeWhile (readsPast b (some c) ·.1) ++ leftAfter b (some c) rem = rem :=
        List.takeWhile_append_dropWhile
      -- every sample read past lies below `c`, hence below `d`
      have hbelow : ∀ q ∈ rem.takeWhile (readsPast b (some c) ·.1),
          good q.1 ∧ rank q.1 < rank d := by
        intro q hq
        have hgq : good q.1 := hrem.key_good q ((List.takeWhile_prefix _).subset hq)
        have hqr : readsPast b (some c) q.1 = true := by simpa using List.mem_takeWhile_imp hq
        exact ⟨hgq, (rank_lt_of_readsPast hr hgq (hbs.key_good hb) hgc (hbs.rank_lt_succ hb hc)
          hqr).trans_le hcd⟩
      rw [bucket_of_some hd, bucket_of_some hd]
      conv_lhs => rw [← hsplit]
      rw [valuesIn_append, valuesIn_of_lt hr (hbs.key_good hd) hbelow, List.nil_append]

/-- **One bucket off the front.** Over samples in order that are a suffix of `xs`, the buckets
from the `j`-th on are bucket `j` as `fill` finds it, then the buckets from the next on over the
samples `fill` leaves. -/
theorem bucketsFrom_eq_fill (hm : ∀ c ∈ bs m, ∀ q ∈ xs, rank q.1 < rank c)
    (hxs : SortedKeys good rank xs) (hrem : rem <:+ xs) (hb : bs j = some b) :
    bucketsFrom aggregate bs m j rem =
      (if filled b (bs (j + 1)) rem = [] then []
        else [(b, aggregate (filled b (bs (j + 1)) rem))]) ++
      bucketsFrom aggregate bs m (j + 1) (leftAfter b (bs (j + 1)) rem) := by
  have hsorted := hxs.of_suffix hrem
  have hgb := hbs.key_good hb
  rcases Nat.lt_or_ge j m with hjm | hjm
  · have hnext : ∀ c ∈ bs (j + 1), good c ∧ rank b < rank c :=
      fun c hc => ⟨hbs.key_good hc, hbs.rank_lt_succ hb hc⟩
    rw [bucketsFrom_of_lt hjm, bucket_of_some hb, valuesIn_eq_filled hr hsorted hgb hnext,
      bucketsFrom_congr fun k hk => bucket_leftAfter hr hbs hsorted hb hk]
    by_cases h : filled b (bs (j + 1)) rem = [] <;> simp [h]
  · -- from the `m`-th key on, every sample lies below the bucket
    have hbelow : ∀ q ∈ rem, good q.1 ∧ rank q.1 < rank b :=
      fun q hq => ⟨hsorted.key_good q hq, rank_lt_of_le hbs hm hjm hb (hrem.subset hq)⟩
    rw [bucketsFrom_of_le hjm, bucketsFrom_of_le (by omega), (filled_of_below hr hgb hbelow).1]
    simp

end Step

/-! ## Where bucketing stands between calls -/

section Stands

variable (aggregate : List ν → ω) (bs : ℕ → Option κ) (m : ℕ)

/-- Where bucketing stands between calls, by the key of the bucket it is at and the key after it
(`start`, `stop`), the number `i` of bucket keys read and the samples `rem` still to come, the
held-back one first: `out` is what it has still to hand out. -/
inductive Stands : Option κ → Option (Option κ) → ℕ → List (κ × ν) → List (κ × ω) → Prop
  /-- No key of the next bucket read: the next bucket is the `i`-th. -/
  | fresh {i rem} : Stands none none i rem (bucketsFrom aggregate bs m i rem)
  /-- Past the end of the bucket keys: nothing is left. -/
  | ended {i rem} : bs i = none → Stands none (some none) i rem []
  /-- At bucket `j`, whose key is read. -/
  | at_bucket {j b rem} : bs j = some b →
      Stands (some b) none (j + 1) rem (bucketsFrom aggregate bs m j rem)

/-- A state between calls, leaving aside what it computed ahead, that has `out` still to hand
out over samples that are a suffix of `xs`. -/
def Rests (xs : List (κ × ν)) (R : σ → List (κ × ν) → ℕ → Prop) (p : Compact κ ν ω × σ)
    (out : List (κ × ω)) : Prop :=
  ∃ ys i, R p.2 ys i ∧ p.1.values = [] ∧ p.1.pending.toList ++ ys <:+ xs ∧
    Stands aggregate bs m p.1.start p.1.stop i (p.1.pending.toList ++ ys) out

/-- A bucketing state, with the bucket it computed ahead, that has `out` still to hand out. -/
def Holds (xs : List (κ × ν)) (R : σ → List (κ × ν) → ℕ → Prop) (p : Compact κ ν ω × σ)
    (out : List (κ × ω)) : Prop :=
  (p.1.buffered = none ∧ Rests aggregate bs m xs R p out) ∨
    ∃ q rest, p.1.buffered = some (.ok q) ∧ out = q :: rest ∧ Rests aggregate bs m xs R p rest

variable {aggregate bs m}

/-- A state that holds back the head of `l`, with nothing in its bucket, rests where it stands. -/
theorem rests_held {xs : List (κ × ν)} {R : σ → List (κ × ν) → ℕ → Prop} {l : List (κ × ν)}
    {start : Option κ} {stop : Option (Option κ)} {i : ℕ} {out : List (κ × ω)}
    {bf : Lookahead (κ × ω)} {s : σ} (hs : R s l.tail i) (hl : l <:+ xs)
    (hst : Stands aggregate bs m start stop i l out) :
    Rests aggregate bs m xs R (⟨l.head?, start, stop, [], bf⟩, s) out := by
  have hl' : l.head?.toList ++ l.tail = l := by cases l <;> rfl
  exact ⟨l.tail, i, hs, rfl, by simpa only [hl'] using hl, by simpa only [hl'] using hst⟩

/-- After bucket `j`, bucketing stands at the next bucket or, with no key after `j`'s, before a
key that is not there. -/
theorem stands_next [LinearOrder β] {good : κ → Prop} {rank : κ → β}
    (hbs : BucketKeys good rank bs) (j : ℕ) (rem : List (κ × ν)) :
    Stands aggregate bs m (bs (j + 1)) none (j + 1 + 1) rem
      (bucketsFrom aggregate bs m (j + 1) rem) := by
  cases hc : bs (j + 1) with
  | none =>
    have hnil : ∀ i, j + 1 ≤ i → bucketsFrom aggregate bs m i rem = [] := fun i hi =>
      bucketsFrom_eq_nil fun k hk => bucket_of_none (hbs.none_of_le hc (hi.trans hk)) rem
    rw [hnil (j + 1) le_rfl, ← hnil (j + 1 + 1) (by omega)]
    exact Stands.fresh
  | some c => exact Stands.at_bucket hc

end Stands

/-! ## The run of `advance` -/

section Run

variable [LinearOrder β] {good : κ → Prop} {rank : κ → β} {aggregate : List ν → ω}
  {samples : Feed σ (κ × ν)} {buckets : Feed σ κ} {bs : ℕ → Option κ}
  {R : σ → List (κ × ν) → ℕ → Prop} {m : ℕ} {xs : List (κ × ν)}
  (hr : RankedOn good rank) (hin : Inputs samples buckets bs R) (hbs : BucketKeys good rank bs)
  (hxs : SortedKeys good rank xs) (hm : ∀ c ∈ bs m, ∀ q ∈ xs, rank q.1 < rank c)
include hr hin hbs hxs hm

theorem advance_at_bucket_rests : ∀ (fuel : ℕ) {j : ℕ} {b : κ} {p : Option (κ × ν)}
    {bf : Lookahead (κ × ω)} {s : σ} {ys : List (κ × ν)},
    bs j = some b → R s ys (j + 1) → p.toList ++ ys <:+ xs →
    m - j + (p.toList ++ ys).length + 1 < fuel →
    ∃ st' s', advance aggregate samples buckets fuel ⟨p, some b, none, [], bf⟩ s =
        (.ok (bucketsFrom aggregate bs m j (p.toList ++ ys)).head?, st', s') ∧
      st'.buffered = bf ∧
      Rests aggregate bs m xs R (st', s') (bucketsFrom aggregate bs m j (p.toList ++ ys)).tail
  | 0, _, _, _, _, _, _, _, _, _, hfuel => absurd hfuel (Nat.not_lt_zero _)
  | f + 1, j, b, p, bf, s, ys, hb, hs, hsuf, hfuel => by
    -- read the next key, fill the bucket, and ask whether samples remain
    obtain ⟨s₁, hpull, hs₁⟩ := hin.buckets_pull hs
    obtain ⟨s₂, hfill, hs₂⟩ := fill_eq (hin.samples_yield (j + 1 + 1)) b (bs (j + 1))
      (p.toList ++ ys) f ⟨p, some b, some (bs (j + 1)), [], bf⟩ hs₁ rfl (by omega)
    obtain ⟨s₃, hmore, hs₃⟩ := more_eq (hin.samples_yield (j + 1 + 1)) hs₂
    rw [advance_at_bucket hpull hfill hmore]
    have hstep : bucketsFrom aggregate bs m j (p.toList ++ ys) = _ :=
      bucketsFrom_eq_fill hr hbs hm hxs hsuf hb
    simp only [List.nil_append] at hfill ⊢
    rw [hstep]
    generalize hleft : leftAfter b (bs (j + 1)) (p.toList ++ ys) = left at hs₃ ⊢
    have hleft_suf : left <:+ xs := hleft ▸ leftAfter_suffix.trans hsuf
    have hlen : left.length ≤ (p.toList ++ ys).length := hleft ▸ leftAfter_suffix.length_le
    by_cases hne : filled b (bs (j + 1)) (p.toList ++ ys) = []
    · -- an empty bucket: nothing to hand out from it
      rw [hne]
      simp only [if_true, List.nil_append, List.isEmpty_nil, Bool.not_true, Bool.false_eq_true,
        if_false, Bool.not_not]
      by_cases hend : left = [] ∨ bs (j + 1) = none
      · -- the samples or the bucket keys have run out: stop
        have hnil : bucketsFrom aggregate bs m (j + 1) left = [] := by
          rcases hend with h | h
          · rw [h, bucketsFrom_nil]
          · exact bucketsFrom_eq_nil fun k hk => bucket_of_none (hbs.none_of_le h hk) left
        have hcond : (left.isEmpty || (bs (j + 1)).isNone) = true := by
          rcases hend with h | h <;> simp [h]
        rw [if_pos hcond]
        refine ⟨_, _, by rw [hnil]; rfl, rfl, ?_⟩
        have hst : Stands aggregate bs m (bs (j + 1)) none (j + 1 + 1) left
            (bucketsFrom aggregate bs m (j + 1) left) := stands_next hbs j left
        rw [hnil] at hst ⊢
        exact rests_held hs₃ hleft_suf hst
      · -- samples remain and so does a key: go on to the next bucket
        obtain ⟨hl, hc⟩ := not_or.1 hend
        obtain ⟨c, hc⟩ := Option.ne_none_iff_exists'.1 hc
        have hcond : (left.isEmpty || (bs (j + 1)).isNone) = false := by
          simp [hc, hl]
        rw [if_neg (by simp [hcond]), hc]
        -- samples remain, so bucket `j` comes before the `m`-th
        have hjm : j < m := by
          by_contra hjm
          have hbelow : ∀ q ∈ p.toList ++ ys, good q.1 ∧ rank q.1 < rank b := fun q hq =>
            ⟨(hxs.of_suffix hsuf).key_good q hq,
              rank_lt_of_le hbs hm (not_lt.1 hjm) hb (hsuf.subset hq)⟩
          exact hl (hleft ▸ (filled_of_below hr (hbs.key_good hb) hbelow).2)
        obtain ⟨st', s', hadv, hbf, hrest⟩ := advance_at_bucket_rests f hc hs₃
          (by rwa [toList_head?_append_tail]) (by rw [toList_head?_append_tail]; omega)
        rw [toList_head?_append_tail] at hadv hrest
        exact ⟨st', s', hadv, hbf, hrest⟩
    · -- a bucket with values: hand it out
      have hcond : (!(filled b (bs (j + 1)) (p.toList ++ ys)).isEmpty) = true := by
        simpa [List.isEmpty_iff] using hne
      rw [if_pos hcond, if_neg hne, List.singleton_append, List.head?_cons, List.tail_cons]
      exact ⟨_, _, rfl, rfl, rests_held hs₃ hleft_suf (stands_next hbs j left)⟩

/-- **From wherever it rests, `advance` hands out the first bucket still to come** and rests where
the others begin, within any budget beyond the position `m` and the number of samples. -/
theorem advance_rests {fuel : ℕ} (hfuel : m + xs.length + 1 < fuel) {st : Compact κ ν ω} {s : σ}
    {out : List (κ × ω)} (h : Rests aggregate bs m xs R (st, s) out) :
    ∃ st' s', advance aggregate samples buckets fuel st s = (.ok out.head?, st', s') ∧
      st'.buffered = st.buffered ∧ Rests aggregate bs m xs R (st', s') out.tail := by
  obtain ⟨p, start, stop, vs, bf⟩ := st
  obtain ⟨ys, i, hs, hvs, hsuf, hst⟩ := h
  simp only at hs hvs hsuf hst
  subst hvs
  obtain ⟨f, rfl⟩ : ∃ f, fuel = f + 1 := ⟨fuel - 1, by omega⟩
  have hlen : (p.toList ++ ys).length ≤ xs.length := hsuf.length_le
  obtain ⟨s₁, hpull, hs₁⟩ := hin.buckets_pull hs
  cases hst with
  | fresh =>
    cases hbi : bs i with
    | none =>
      -- no key at all: nothing is left, and bucketing stands past the end
      obtain ⟨s₂, hpull₂, hs₂⟩ := hin.buckets_pull hs₁
      have hnil : bucketsFrom aggregate bs m i (p.toList ++ ys) = [] :=
        bucketsFrom_eq_nil fun k hk => bucket_of_none (hbs.none_of_le hbi hk) _
      rw [hbi] at hpull
      rw [hbs.none_succ hbi] at hpull₂
      rw [advance_no_key hpull hpull₂, hnil]
      exact ⟨_, _, rfl, rfl, ys, i + 1 + 1, hs₂, rfl, hsuf,
        Stands.ended (hbs.none_of_le hbi (by omega))⟩
    | some b =>
      rw [hbi] at hpull
      rw [advance_read_key hpull]
      exact advance_at_bucket_rests hr hin hbs hxs hm (f + 1) hbi hs₁ hsuf (by omega)
  | ended hbi =>
    rw [hbi] at hpull
    rw [advance_past_end hpull]
    exact ⟨_, _, rfl, rfl, ys, i + 1, hs₁, rfl, hsuf, Stands.ended (hbs.none_succ hbi)⟩
  | at_bucket hb => exact advance_at_bucket_rests hr hin hbs hxs hm (f + 1) hb hs hsuf (by omega)

/-- **Bucketing yields the buckets still to come** from every state that holds them. -/
theorem yields_buckets {fuel : ℕ} (hfuel : m + xs.length + 1 < fuel) :
    (feed aggregate samples buckets fuel).Yields (Holds aggregate bs m xs R) where
  hasNext := by
    rintro ⟨st, s⟩ out (⟨hbuf, hrest⟩ | ⟨q, rest, hbuf, rfl, hrest⟩) <;> simp only at hbuf
    · obtain ⟨st', s', hadv, hbuf', hrest'⟩ := advance_rests hr hin hbs hxs hm hfuel hrest
      cases out with
      | nil =>
        exact ⟨(st', s'), by simp [feed, hasNext, hbuf, hadv], Or.inl ⟨hbuf'.trans hbuf, hrest'⟩⟩
      | cons q rest =>
        exact ⟨({ st' with buffered := some (.ok q) }, s'), by simp [feed, hasNext, hbuf, hadv],
          Or.inr ⟨q, rest, rfl, rfl, hrest'⟩⟩
    · exact ⟨(st, s), by simp [feed, hasNext, hbuf], Or.inr ⟨q, rest, hbuf, rfl, hrest⟩⟩
  tryNext := by
    rintro ⟨st, s⟩ q out (⟨hbuf, hrest⟩ | ⟨q', rest, hbuf, hout, hrest⟩) <;> simp only at hbuf
    · obtain ⟨st', s', hadv, -, hrest'⟩ := advance_rests hr hin hbs hxs hm hfuel hrest
      exact ⟨({ st' with buffered := none }, s'), by simp [feed, tryNext, hasNext, hbuf, hadv],
        Or.inl ⟨rfl, hrest'⟩⟩
    · obtain ⟨rfl, rfl⟩ := List.cons.inj hout
      exact ⟨({ st with buffered := none }, s), by simp [feed, tryNext, hasNext, hbuf],
        Or.inl ⟨rfl, hrest⟩⟩

end Run

end Compact

/-! ## Draining the buckets -/

section Main

variable [PartialCompare κ] [LinearOrder β] {good : κ → Prop} {rank : κ → β}
  {samples : Feed σ (κ × ν)} {buckets : Feed σ κ} {bs : ℕ → Option κ}
  {R : σ → List (κ × ν) → ℕ → Prop} {xs : List (κ × ν)} {s : σ} {fuel n : ℕ}

/-- **Bucketing hands out exactly the non-empty buckets.** Over samples in order and strictly
increasing bucket keys, all ranked, that end or pass every sample key at position `m`, every
bucket from the `m`-th on is empty, and draining the adapter within any budget beyond `m` and the
number of samples gives the non-empty buckets before it, in order: for each, its key `bⱼ` and the
aggregate of the values of the samples with key in `[bⱼ, bⱼ₊₁)`. -/
theorem compact_eq_buckets (aggregate : List ν → ω) (hr : RankedOn good rank)
    (hin : Compact.Inputs samples buckets bs R) (hbs : BucketKeys good rank bs)
    (hxs : SortedKeys good rank xs) (m : ℕ) (hm : ∀ c ∈ bs m, ∀ q ∈ xs, rank q.1 < rank c)
    (hs : R s xs 0) (hfuel : m + xs.length + 1 < fuel) (hn : m < n) :
    (∀ j, m ≤ j → bucket aggregate bs xs j = none) ∧
      ((Compact.feed aggregate samples buckets fuel).takeAll n [] (Compact.initial, s)).1 =
        .ok ((List.range m).filterMap (bucket aggregate bs xs)) := by
  refine ⟨fun j hj => ?_, ?_⟩
  · -- from the `m`-th key on, every sample lies below the bucket
    cases hb : bs j with
    | none => exact bucket_of_none hb xs
    | some b =>
      rw [bucket_of_some hb, valuesIn_of_lt hr (hbs.key_good hb)
        fun q hq => ⟨hxs.key_good q hq, rank_lt_of_le hbs hm hj hb hq⟩]
      rfl
  · have hout : (List.range m).filterMap (bucket aggregate bs xs) = bucketsFrom aggregate bs m 0 xs := by
      rw [bucketsFrom, Nat.sub_zero, List.range_eq_range']
    have hstart : Compact.Holds aggregate bs m xs R (Compact.initial, s)
        ((List.range m).filterMap (bucket aggregate bs xs)) := by
      rw [hout]
      exact Or.inl ⟨rfl, xs, 0, hs, rfl, List.suffix_refl xs, Compact.Stands.fresh⟩
    have hlen : ((List.range m).filterMap (bucket aggregate bs xs)).length < n :=
      (List.length_filterMap_le _ _).trans_lt (by simpa using hn)
    exact (Compact.yields_buckets hr hin hbs hxs hm hfuel).takeAll_nil hstart hlen

/-- Readings keyed `-3, 0, 1, 7` over bucket keys `0, 5, 10, 15`: the first reading lies below
every bucket, two readings fall in `[0, 5)` and one in `[5, 10)`. -/
theorem compact_eq_buckets_readings :
    SortedKeys (fun _ => True) Int64.toInt
        ([(-3, 100.0), (0, 1.0), (1, 3.0), (7, 10.0)] : List (Int64 × Float)) ∧
      ((Compact.feed List.length (Feed.ofList.onLeft : Feed (List (Int64 × Float) × List Int64) _)
          Feed.ofList.onRight 8).takeAll 3 []
          (Compact.initial, ([(-3, 100.0), (0, 1.0), (1, 3.0), (7, 10.0)], [0, 5, 10, 15]))).1 =
        .ok [(0, 2), (5, 1)] := by
  have hxs : SortedKeys (fun _ => True) Int64.toInt
      ([(-3, 100.0), (0, 1.0), (1, 3.0), (7, 10.0)] : List (Int64 × Float)) :=
    ⟨fun _ _ => trivial, by decide⟩
  refine ⟨hxs, ?_⟩
  rw [(compact_eq_buckets List.length Series.rankedOn_toInt (Compact.inputs_ofList [0, 5, 10, 15])
    (bucketKeys_ofList (fun _ _ => trivial) (by decide)) hxs 2
    (fun c hc => by cases Option.mem_some_iff.1 hc; decide) ⟨rfl, rfl⟩
    (by decide : 2 + 4 + 1 < 8) (by decide : 2 < 3)).2]
  rfl

/-- A sample keyed NaN lies in no bucket by its key, yet bucketing keeps it: NaN is neither below
the only bucket key nor at or past a next one, so `fill` adds its value to the bucket `[0, ∞)`. -/
theorem compact_keeps_nan_sample :
    ((Compact.feed List.length (Feed.ofList.onLeft : Feed (List (Float × Float) × List Float) _)
        Feed.ofList.onRight 4).takeAll 4 [] (Compact.initial, ([(0.0 / 0.0, 1.0)], [0.0]))).1 =
      .ok [(0.0, 1)] ∧
    (List.range 1).filterMap
        (bucket List.length (fun j => [(0.0 : Float)][j]?) [((0.0 / 0.0 : Float), (1.0 : Float))]) =
      [] :=
  ⟨rfl, rfl⟩

end Main

end LazySeq
