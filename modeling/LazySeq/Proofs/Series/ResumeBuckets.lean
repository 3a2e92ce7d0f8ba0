import Mathlib
import LazySeq.Proofs.Stream.Loop
import LazySeq.Proofs.Stream.Resume
import LazySeq.Proofs.Series.Buckets

/-!
# A bucketing resumes where it stopped

A bucketing reads bucket keys and samples from two inputs; a failure of either, met while a
bucket is being filled, is kept for the next call, and the keys read and the samples gathered
stay in the bucketing's state. The next look ahead resumes there.

It is compared with the bucketing over two lists that hold what its inputs still hold
(`Compact.overLists`). One pass of `advance` over inputs that fail for a while either fails,
leaving a state from which the bucketing over the lists hands out what it would have handed out,
or finds what the bucketing over the lists finds (`Compact.advance_passes`). Past the last
sample, though, a look ahead reads one more bucket key each time it is asked, so its state does
not settle: the bucketing satisfies `Feed.Resumes`, not `Feed.Transient`.

**Main statement.** `Feed.Transient.compact`: over samples and bucket keys that fail for a while,
hold finite lists and stay within the budget, the bucketing hands out what the bucketing over
those lists drains.
-/

namespace LazySeq

open Feed

variable {σ σ₁ σ₂ κ ν ω : Type}

namespace Compact

variable [PartialCompare κ]

/-! ## `fill` is a reading loop -/

/-- The sample `fill` reads first: the one held back, if any. -/
def heldSample (st : Compact κ ν ω) : Option ((κ × ν) × Compact κ ν ω) :=
  st.pending.map fun q => (q, { st with pending := none })

/-- What one sample does to the bucket `[start, stop)`: one below it is dropped, one at or past
the next key is held back and ends the bucket, and one in it adds its value. -/
def onSample (start : κ) (stop : Option κ) (st : Compact κ ν ω) (q : κ × ν) :
    Compact κ ν ω ⊕ (Unit × Compact κ ν ω) :=
  if PartialCompare.lt q.1 start then .inl st
  else if (stop.map (PartialCompare.ge q.1)).getD false then .inr ((), { st with pending := some q })
  else .inl { st with values := st.values ++ [q.2] }

theorem fill_eq_readLoop (samples : Feed σ (κ × ν)) (start : κ) (stop : Option κ) :
    ∀ (n : ℕ) (st : Compact κ ν ω) (s : σ),
      fill samples start stop n st s =
        samples.readLoop heldSample (onSample start stop) (fun st => ((), st)) n st s
  | 0, _, _ => rfl
  | n + 1, st, s => by
    -- the sample read, held back or pulled, meets the bucket's bounds
    have hstep : ∀ (st' : Compact κ ν ω) (q : κ × ν) (s' : σ),
        (if PartialCompare.lt q.1 start then fill samples start stop n st' s'
          else if (stop.map (PartialCompare.ge q.1)).getD false then
            (.ok (), { st' with pending := some q }, s')
          else fill samples start stop n { st' with values := st'.values ++ [q.2] } s') =
        afterRead (onSample start stop) (fun st => ((), st))
          (samples.readLoop heldSample (onSample start stop) (fun st => ((), st)) n)
          (.ok (some q)) st' s' := by
      intro st' q s'
      simp only [afterRead, onSample]
      split
      · rw [fill_eq_readLoop samples start stop n]
      · split
        · rfl
        · rw [fill_eq_readLoop samples start stop n]
    obtain ⟨pending, a, b, vs, bf⟩ := st
    cases pending with
    | some q =>
      simp only [fill, readLoop, heldSample, Option.map_some]
      exact hstep _ q s
    | none =>
      simp only [fill, readLoop, heldSample, Option.map_none]
      rcases samples.pull s with ⟨_ | _ | q, s'⟩
      · rfl
      · rfl
      · exact hstep _ q s'

theorem holdsOne_fill (start : κ) (stop : Option κ) :
    HoldsOne (heldSample : Compact κ ν ω → _) (onSample start stop) where
  taken {c a c'} h := by
    cases hp : c.pending with
    | none => simp [heldSample, hp] at h
    | some q =>
      simp only [heldSample, hp, Option.map_some, Option.some.injEq, Prod.mk.injEq] at h
      rw [← h.2]
      rfl
  onward {c a c'} hc hs := by
    have hp : c.pending = none := by simpa [heldSample] using hc
    unfold onSample at hs
    split at hs
    · cases hs
      exact hc
    · split at hs
      · cases hs
      · cases hs
        simpa [heldSample] using hp

/-- `fill` keeps the bucket's keys and what is kept for the next call. -/
theorem fill_keeps (samples : Feed σ (κ × ν)) (start : κ) (stop : Option κ) (n : ℕ)
    (st : Compact κ ν ω) (s : σ) :
    (fill samples start stop n st s).2.1.start = st.start ∧
      (fill samples start stop n st s).2.1.stop = st.stop ∧
      (fill samples start stop n st s).2.1.buffered = st.buffered := by
  rw [fill_eq_readLoop]
  refine readLoop_keeps samples
    (fun c : Compact κ ν ω => c.start = st.start ∧ c.stop = st.stop ∧ c.buffered = st.buffered)
    ?_ ?_ ?_ id n s
    ⟨rfl, rfl, rfl⟩
  · intro c a c' h hc
    cases hp : c.pending with
    | none => simp [heldSample, hp] at h
    | some q =>
      simp only [heldSample, hp, Option.map_some, Option.some.injEq, Prod.mk.injEq] at h
      rw [← h.2]
      exact hc
  · intro c a c' hs hc
    unfold onSample at hs
    split at hs
    · cases hs
      exact hc
    · split at hs
      · cases hs
      · cases hs
        exact hc
  · intro c a b c' hs hc
    unfold onSample at hs
    split at hs
    · cases hs
    · split at hs
      · cases hs
        exact hc
      · cases hs

/-! ## The steps of `advance` -/

section Steps

/-- What `advance` does at a bucket once its samples are in and it is known whether samples
remain: hands the bucket out if it is not empty, stops if nothing can follow, or goes on to the
next bucket. -/
def finishBucket (aggregate : List ν → ω) (samples : Feed σ (κ × ν)) (buckets : Feed σ κ)
    (n : ℕ) (first : κ) (next : Option κ) (st : Compact κ ν ω) (more : Bool) (s : σ) :
    Outcome (Option (κ × ω)) × Compact κ ν ω × σ :=
  let st := { st with start := next, stop := none }
  if !st.values.isEmpty then (.ok (some (first, aggregate st.values)), { st with values := [] }, s)
  else if !more || next.isNone then (.ok none, st, s)
  else advance aggregate samples buckets n st s

/-- Whether samples remain after a bucket: the held-back one says so, or else the samples. -/
def moreRead (samples : Feed σ (κ × ν)) (st : Compact κ ν ω) (s : σ) : Outcome Bool × σ :=
  if st.pending.isSome then (.ok true, s) else samples.hasNext s

variable {aggregate : List ν → ω} {samples : Feed σ (κ × ν)} {buckets : Feed σ κ} {n : ℕ}
  {st : Compact κ ν ω} {s s' : σ}

/-- At a bucket whose keys are known, `advance` fills it and finishes it. -/
theorem advance_of_keys {first : κ} {next : Option κ} (hstart : st.start = some first)
    (hstop : st.stop = some next) :
    advance aggregate samples buckets (n + 1) st s =
      match fill samples first next n st s with
      | (.error h, st, s) => (.error h, st, s)
      | (.ok (), st, s) =>
        match moreRead samples st s with
        | (.error h, s) => (.error h, st, s)
        | (.ok more, s) => finishBucket aggregate samples buckets n first next st more s := by
  obtain ⟨p, a, b, vs, bf⟩ := st
  simp only at hstart hstop
  subst hstart hstop
  simp only [advance, Option.isSome_some, if_true]
  rfl

/-- A failed read of the first bucket key leaves the state as it was. -/
theorem advance_start_fails {h : Halt} (hstart : st.start = none)
    (hp : buckets.pull s = (.error h, s')) :
    advance aggregate samples buckets (n + 1) st s = (.error h, st, s') := by
  simp [advance, hstart, hp]

/-- Reading the first bucket key is starting from a state that holds it. -/
theorem advance_read_start {b : κ} (hstart : st.start = none)
    (hp : buckets.pull s = (.ok (some b), s')) :
    advance aggregate samples buckets (n + 1) st s =
      advance aggregate samples buckets (n + 1) { st with start := some b } s' := by
  obtain ⟨p, a, c, vs, bf⟩ := st
  simp only at hstart
  subst hstart
  simp [advance, hp]

/-- With no first bucket key and the key after it read before, `advance` finds nothing. -/
theorem advance_no_start {x : Option κ} (hstart : st.start = none) (hstop : st.stop = some x)
    (hp : buckets.pull s = (.ok none, s')) :
    advance aggregate samples buckets (n + 1) st s = (.ok none, st, s') := by
  obtain ⟨p, a, c, vs, bf⟩ := st
  simp only at hstart hstop
  subst hstart hstop
  simp [advance, hp]

/-- With no first bucket key, `advance` reads the key after it once, and finds nothing. -/
theorem advance_no_start_read {s'' : σ} {r : Outcome (Option κ)} (hstart : st.start = none)
    (hstop : st.stop = none) (hp : buckets.pull s = (.ok none, s'))
    (hp' : buckets.pull s' = (r, s'')) :
    advance aggregate samples buckets (n + 1) st s =
      match r with
      | .ok x => (.ok none, { st with stop := some x }, s'')
      | .error h => (.error h, st, s'') := by
  obtain ⟨p, a, c, vs, bf⟩ := st
  simp only at hstart hstop
  subst hstart hstop
  cases r <;> simp [advance, hp, hp']

/-- A failed read of the key after the bucket leaves the state as it was. -/
theorem advance_stop_fails {a : κ} {h : Halt} (hstart : st.start = some a)
    (hstop : st.stop = none) (hp : buckets.pull s = (.error h, s')) :
    advance aggregate samples buckets (n + 1) st s = (.error h, st, s') := by
  obtain ⟨p, a', c, vs, bf⟩ := st
  simp only at hstart hstop
  subst hstart hstop
  simp [advance, hp]

/-- Reading the key after the bucket is starting from a state that holds it. -/
theorem advance_read_stop {a : κ} {x : Option κ} (hstart : st.start = some a)
    (hstop : st.stop = none) (hp : buckets.pull s = (.ok x, s')) :
    advance aggregate samples buckets (n + 1) st s =
      advance aggregate samples buckets (n + 1) { st with stop := some x } s' := by
  obtain ⟨p, a', c, vs, bf⟩ := st
  simp only at hstart hstop
  subst hstart hstop
  simp [advance, hp]

end Steps

/-! ## Over two lists -/

section Lists

/-- The bucketing over the samples and bucket keys of two lists. -/
abbrev overLists (aggregate : List ν → ω) (fuel : ℕ) :
    Feed (Compact κ ν ω × (List (κ × ν) × List κ)) (κ × ω) :=
  feed aggregate ofList.onLeft ofList.onRight fuel

/-- What a bucketing has still to read: the sample held back and the samples still to come, the
bucket keys still to come, and the key after the bucket being filled if it was read. -/
def toDo (st : Compact κ ν ω) (l₁ : List (κ × ν)) (l₂ : List κ) : ℕ :=
  (st.pending.toList ++ l₁).length + l₂.length + st.stop.join.isSome.toNat

omit [PartialCompare κ] in
theorem toRead_heldSample (st : Compact κ ν ω) (l : List (κ × ν)) :
    toRead heldSample st l = (st.pending.toList ++ l).length := by
  cases h : st.pending <;> simp [toRead, heldSample, h, Nat.add_comm]

variable {aggregate : List ν → ω}

/-- Within a budget beyond the samples still to come, `fill` over a list adds the values it reads
past and does not drop, and holds back the first sample it does not read past. -/
theorem fill_overList (first : κ) (next : Option κ) (st : Compact κ ν ω) (l₁ : List (κ × ν))
    (l₂ : List κ) {k : ℕ} (hk : (st.pending.toList ++ l₁).length < k) :
    fill ofList.onLeft first next k st (l₁, l₂) =
      (.ok (), { st with pending := (leftAfter first next (st.pending.toList ++ l₁)).head?
                         values := st.values ++ filled first next (st.pending.toList ++ l₁) },
        ((leftAfter first next (st.pending.toList ++ l₁)).tail, l₂)) := by
  obtain ⟨s', hfill, hs'1, hs'2⟩ := fill_eq (Feed.yields_ofList.onLeft (fun t => t = l₂)) first
    next (st.pending.toList ++ l₁) k st (s := (l₁, l₂)) ⟨rfl, rfl⟩ rfl hk
  rw [hfill]
  obtain ⟨a, b⟩ := s'
  simp only at hs'1 hs'2
  subst hs'1 hs'2
  rfl

omit [PartialCompare κ] in
@[simp] theorem moreRead_overList (st : Compact κ ν ω) (l₁ : List (κ × ν)) (l₂ : List κ) :
    moreRead ofList.onLeft st (l₁, l₂) = (.ok (st.pending.isSome || !l₁.isEmpty), (l₁, l₂)) := by
  cases h : st.pending <;> simp [moreRead, h, Feed.ofList]

/-- With no first bucket key and no key left, the bucketing over lists finds nothing. -/
theorem advance_overLists_ended {st : Compact κ ν ω} (l₁ : List (κ × ν)) (hs : st.start = none)
    {n : ℕ} (hn : 0 < n) : (advance aggregate ofList.onLeft ofList.onRight n st (l₁, [])).1 = .ok none := by
  obtain ⟨n, rfl⟩ := Nat.exists_eq_add_of_lt hn
  have hend : ofList.onRight.pull (l₁, ([] : List κ)) = (.ok none, (l₁, [])) := by simp
  cases hstop : st.stop with
  | some x => rw [advance_no_start hs hstop hend]
  | none => rw [advance_no_start_read hs hstop hend hend]

/-- With no sample held back or still to come and an empty bucket, the bucketing over lists finds
nothing. -/
theorem advance_overLists_drained {st : Compact κ ν ω} (l₂ : List κ) (hp : st.pending = none)
    (hv : st.values = []) {n : ℕ} (hn : 1 < n) :
    (advance aggregate ofList.onLeft ofList.onRight n st ([], l₂)).1 = .ok none := by
  obtain ⟨n, rfl⟩ : ∃ m, n = m + 1 + 1 := ⟨n - 2, by omega⟩
  -- at a bucket whose keys are known, no sample comes and nothing follows
  have hkeys : ∀ (st : Compact κ ν ω) (l₂ : List κ) (first : κ) (next : Option κ),
      st.pending = none → st.values = [] → st.start = some first → st.stop = some next →
      (advance aggregate ofList.onLeft ofList.onRight (n + 1 + 1) st ([], l₂)).1 = .ok none := by
    intro st l₂ first next hp hv hfirst hnext
    rw [advance_of_keys hfirst hnext, fill_overList first next st [] l₂ (by simp [hp])]
    simp [hp, hv, leftAfter, filled, finishBucket]
  -- before it, the keys still to read are read
  have hstart : ∀ (st : Compact κ ν ω) (l₂ : List κ) (first : κ), st.pending = none →
      st.values = [] → st.start = some first →
      (advance aggregate ofList.onLeft ofList.onRight (n + 1 + 1) st ([], l₂)).1 = .ok none := by
    intro st l₂ first hp hv hfirst
    cases hnext : st.stop with
    | some next => exact hkeys st l₂ first next hp hv hfirst hnext
    | none =>
      rw [advance_read_stop hfirst hnext
        (show ofList.onRight.pull ([], l₂) = (.ok l₂.head?, ([], l₂.tail)) by simp)]
      exact hkeys _ _ first _ hp hv hfirst rfl
  cases hfirst : st.start with
  | some first => exact hstart st l₂ first hp hv hfirst
  | none =>
    cases l₂ with
    | nil => exact advance_overLists_ended [] hfirst (by omega)
    | cons b t =>
      rw [advance_read_start hfirst (show ofList.onRight.pull ([], b :: t) = (.ok (some b), ([], t))
        by simp)]
      exact hstart _ t b hp hv rfl

omit [PartialCompare κ] in
@[simp] theorem toDo_with_start (st : Compact κ ν ω) (a : Option κ) (l₁ : List (κ × ν))
    (l₂ : List κ) : toDo { st with start := a } l₁ l₂ = toDo st l₁ l₂ :=
  rfl

omit [PartialCompare κ] in
/-- Reading the key after the bucket moves it from the keys to come to the state. -/
theorem toDo_read_stop {st : Compact κ ν ω} (h : st.stop = none) (l₁ : List (κ × ν))
    (l₂ : List κ) : toDo { st with stop := some l₂.head? } l₁ l₂.tail = toDo st l₁ l₂ := by
  cases l₂ <;> simp [toDo, h]
  omega

/-- At a bucket whose keys are known, the bucketing over lists fills the bucket from the samples
and finishes it, knowing whether samples remain. -/
theorem advance_overLists_keys (aggregate : List ν → ω) {st : Compact κ ν ω} {first : κ}
    {next : Option κ} (hfirst : st.start = some first) (hnext : st.stop = some next) (l₁ : List (κ × ν))
    (l₂ : List κ) {m : ℕ} (hm : (st.pending.toList ++ l₁).length < m) :
    advance aggregate ofList.onLeft ofList.onRight (m + 1) st (l₁, l₂) =
      finishBucket aggregate ofList.onLeft ofList.onRight m first next
        { st with pending := (leftAfter first next (st.pending.toList ++ l₁)).head?
                  values := st.values ++ filled first next (st.pending.toList ++ l₁) }
        ((leftAfter first next (st.pending.toList ++ l₁)).head?.isSome ||
          !(leftAfter first next (st.pending.toList ++ l₁)).tail.isEmpty)
        ((leftAfter first next (st.pending.toList ++ l₁)).tail, l₂) := by
  rw [advance_of_keys hfirst hnext, fill_overList first next st l₁ l₂ hm]
  simp only [moreRead_overList]

/-- Over lists, two budgets beyond what is still to read give the same pass. -/
theorem advance_overLists_fuel :
    ∀ (n m : ℕ) (st : Compact κ ν ω) (l₁ : List (κ × ν)) (l₂ : List κ),
      toDo st l₁ l₂ + 1 < n → toDo st l₁ l₂ + 1 < m →
      advance aggregate ofList.onLeft ofList.onRight n st (l₁, l₂) =
        advance aggregate ofList.onLeft ofList.onRight m st (l₁, l₂)
  | 0, _, _, _, _, hn, _ => absurd hn (Nat.not_lt_zero _)
  | _ + 1, 0, _, _, _, _, hm => absurd hm (Nat.not_lt_zero _)
  | n + 1, m + 1, st, l₁, l₂, hn, hm => by
    -- at a bucket whose keys are known both budgets fill it alike and finish it alike
    have hbucket : ∀ (st : Compact κ ν ω) (l₂ : List κ) (first : κ) (next : Option κ),
        st.start = some first → st.stop = some next → toDo st l₁ l₂ + 1 < n + 1 →
        toDo st l₁ l₂ + 1 < m + 1 →
        advance aggregate ofList.onLeft ofList.onRight (n + 1) st (l₁, l₂) =
          advance aggregate ofList.onLeft ofList.onRight (m + 1) st (l₁, l₂) := by
      intro st l₂ first next hfirst hnext hn hm
      have hrem : (st.pending.toList ++ l₁).length ≤ toDo st l₁ l₂ := by unfold toDo; omega
      rw [advance_overLists_keys aggregate hfirst hnext l₁ l₂ (by omega),
        advance_overLists_keys aggregate hfirst hnext l₁ l₂ (by omega)]
      simp only [finishBucket]
      split_ifs with hvalues hend
      · rfl
      · rfl
      · -- the next bucket: one key fewer to come, and no more samples
        have hsome : next.isSome = true := by cases next <;> simp_all
        have hsuf : leftAfter first next (st.pending.toList ++ l₁) <:+ st.pending.toList ++ l₁ :=
          leftAfter_suffix
        have hst : toDo st l₁ l₂ = (st.pending.toList ++ l₁).length + l₂.length + 1 := by
          simp [toDo, hnext, hsome]
        have hlen := hsuf.length_le
        apply advance_overLists_fuel n m <;>
          simp only [toDo, toList_head?_append_tail, Option.join_none, Option.isSome_none,
            Bool.toNat_false] <;> omega
    -- before it, the key after the bucket is read
    have hstart : ∀ (st : Compact κ ν ω) (l₂ : List κ) (first : κ), st.start = some first →
        toDo st l₁ l₂ + 1 < n + 1 → toDo st l₁ l₂ + 1 < m + 1 →
        advance aggregate ofList.onLeft ofList.onRight (n + 1) st (l₁, l₂) =
          advance aggregate ofList.onLeft ofList.onRight (m + 1) st (l₁, l₂) := by
      intro st l₂ first hfirst hn hm
      cases hnext : st.stop with
      | some next => exact hbucket st l₂ first next hfirst hnext hn hm
      | none =>
        have hp : ofList.onRight.pull (l₁, l₂) = (.ok l₂.head?, (l₁, l₂.tail)) := by simp
        rw [advance_read_stop hfirst hnext hp, advance_read_stop hfirst hnext hp]
        exact hbucket _ _ first _ hfirst rfl (by rwa [toDo_read_stop hnext])
          (by rwa [toDo_read_stop hnext])
    cases hfirst : st.start with
    | some first => exact hstart st l₂ first hfirst hn hm
    | none =>
      cases l₂ with
      | nil =>
        -- no key at all: nothing is found, whatever the budget
        have hend : ofList.onRight.pull (l₁, ([] : List κ)) = (.ok none, (l₁, [])) := by simp
        cases hstop : st.stop with
        | some x => rw [advance_no_start hfirst hstop hend, advance_no_start hfirst hstop hend]
        | none =>
          rw [advance_no_start_read hfirst hstop hend hend, advance_no_start_read hfirst hstop hend hend]
      | cons b t =>
        have hp : ofList.onRight.pull (l₁, b :: t) = (.ok (some b), (l₁, t)) := by simp
        have hdo : toDo st l₁ t + 1 = toDo st l₁ (b :: t) := by simp [toDo]; omega
        rw [advance_read_start hfirst hp, advance_read_start hfirst hp]
        exact hstart _ t b rfl (by simp only [toDo_with_start]; omega)
          (by simp only [toDo_with_start]; omega)

/-- Two states at one bucket from which the loop filling it over the list reads alike pass
alike. -/
theorem advance_overLists_congr {st st' : Compact κ ν ω} {first : κ} {next : Option κ} {m : ℕ}
    {l₁ l₁' : List (κ × ν)} (l₂ : List κ) (hfirst : st.start = some first)
    (hnext : st.stop = some next) (hfirst' : st'.start = some first) (hnext' : st'.stop = some next)
    (h : ofList.readLoop heldSample (onSample first next) (fun st => ((), st)) m st' l₁' =
      ofList.readLoop heldSample (onSample first next) (fun st => ((), st)) m st l₁) :
    advance aggregate ofList.onLeft ofList.onRight (m + 1) st' (l₁', l₂) =
      advance aggregate ofList.onLeft ofList.onRight (m + 1) st (l₁, l₂) := by
  rw [advance_of_keys hfirst' hnext', advance_of_keys hfirst hnext, fill_eq_readLoop,
    fill_eq_readLoop, readLoop_onLeft, readLoop_onLeft, h]

variable {fuel : ℕ} {st st' : Compact κ ν ω} {q q' : List (κ × ν) × List κ}

omit [PartialCompare κ] in
/-- Keeping an answer and handing it out gives back a state that kept nothing. -/
@[simp] theorem unkeep_keep (h : st.buffered = none) (x : Lookahead (κ × ω)) :
    { { st with buffered := x } with buffered := none } = st := by
  cases st
  simp_all

/-- The bucketing over lists drains nothing from a state whose pass finds nothing. -/
theorem drain_of_advance_none (hb : st.buffered = none)
    (h : (advance aggregate ofList.onLeft ofList.onRight fuel st q).1 = .ok none) :
    (overLists aggregate fuel).drain (st, q) = .nil := by
  rcases hadv : advance aggregate ofList.onLeft ofList.onRight fuel st q with ⟨r, st', q'⟩
  rw [hadv] at h
  subst h
  exact drain_of_hasNext_false (show (overLists aggregate fuel).hasNext (st, q) = (.ok false, (st', q'))
    by simp [overLists, feed, hasNext, hb, hadv])

/-- The bucketing over lists hands out the bucket its pass finds, and then what it drains from
where the pass left it. -/
theorem drain_of_advance_some {b : κ × ω} (hb : st.buffered = none) (hb' : st'.buffered = none)
    (h : advance aggregate ofList.onLeft ofList.onRight fuel st q = (.ok (some b), st', q')) :
    (overLists aggregate fuel).drain (st, q) = .cons b ((overLists aggregate fuel).drain (st', q')) := by
  refine drain_of_pull_some ?_
  simp [Feed.pull, overLists, feed, hasNext, tryNext, hb, h, unkeep_keep hb']

/-- Two states from which the passes of the bucketing over lists find the same drain alike. -/
theorem drain_congr_advance (hb : st.buffered = none) (hb' : st'.buffered = none)
    (h : advance aggregate ofList.onLeft ofList.onRight fuel st' q' =
      advance aggregate ofList.onLeft ofList.onRight fuel st q) :
    (overLists aggregate fuel).drain (st', q') = (overLists aggregate fuel).drain (st, q) :=
  drain_congr_hasNext (by simp [overLists, feed, hasNext, hb, hb', h])

end Lists

/-! ## Over inputs that fail for a while -/

section Passes

variable {f₁ : Feed σ₁ (κ × ν)} {f₂ : Feed σ₂ κ} {R₁ : σ₁ → Stream'.Seq (κ × ν) → ℕ → Prop}
  {R₂ : σ₂ → Stream'.Seq κ → ℕ → Prop} {aggregate : List ν → ω} {fuel : ℕ}

omit [PartialCompare κ] in
@[simp] theorem heldSample_eq_none {st : Compact κ ν ω} : heldSample st = none ↔ st.pending = none := by
  simp [heldSample]

/-- A sample that ends the bucket is held back. -/
theorem pending_of_onSample_inr {start : κ} {stop : Option κ} {st st' : Compact κ ν ω}
    {q : κ × ν} {u : Unit} (h : onSample start stop st q = .inr (u, st')) : st'.pending = some q := by
  unfold onSample at h
  split at h
  · cases h
  · split at h
    · cases h
      rfl
    · cases h

/-- **Filling a bucket resumes.** Over samples that fail for a while, within a budget beyond the
samples still to read, `fill` fails where the loop over the list reads on to the same bucket, or
fills the bucket as the loop over the list does. -/
theorem fill_resumes (h₁ : f₁.Transient R₁) (first : κ) (next : Option κ) {n : ℕ}
    {st : Compact κ ν ω} {s₁ : σ₁} {l₁ : List (κ × ν)} {k₁ : ℕ} (hs : R₁ s₁ ↑l₁ k₁)
    (hn : toRead heldSample st l₁ < n) :
    FailsAlong f₁ R₁ heldSample (onSample first next) (fun st => ((), st)) n st s₁ l₁ k₁ ∨
      ReadsAlong f₁ R₁ heldSample (onSample first next) (fun st => ((), st)) n st s₁ l₁ k₁ :=
  h₁.readLoop (holdsOne_fill first next) hs hn

omit [PartialCompare κ] in
/-- After a filled bucket, whether samples remain is read as over the list, and nothing moves:
the bucket ended at a sample held back, or at the end of the samples. -/
theorem moreRead_resumes (h₁ : f₁.Transient R₁) {st : Compact κ ν ω} {s₁ : σ₁} (s₂ : σ₂)
    {l₁ : List (κ × ν)} {k₁ : ℕ} (hs : R₁ s₁ ↑l₁ k₁)
    (hlast : st.pending.isSome ∨ l₁ = [] ∧ f₁.pull s₁ = (.ok none, s₁)) :
    moreRead f₁.onLeft st (s₁, s₂) = (.ok (st.pending.isSome || !l₁.isEmpty), (s₁, s₂)) := by
  rcases hlast with hp | ⟨rfl, hend⟩
  · simp [moreRead, hp]
  · have hh := h₁.hasNext_of_pull_none hs hend
    cases hp : st.pending <;> simp [moreRead, hp, hh]

omit [PartialCompare κ] in
/-- A bucketing over two inputs, matched with the bucketing over two lists: nothing is kept
computed ahead, the budget is beyond what is still to read, a missing key after the bucket is the
end of the keys, and the inputs hand out the lists with at most `k` failures between them. -/
structure Matched (R₁ : σ₁ → Stream'.Seq (κ × ν) → ℕ → Prop) (R₂ : σ₂ → Stream'.Seq κ → ℕ → Prop)
    (fuel : ℕ) (st : Compact κ ν ω) (s : σ₁ × σ₂) (l₁ : List (κ × ν)) (l₂ : List κ) (k : ℕ) :
    Prop where
  unbuffered : st.buffered = none
  within : toDo st l₁ l₂ + 1 < fuel
  keysEnd : st.stop = some none → l₂ = []
  inputs : ∃ k₁ k₂, k₁ + k₂ ≤ k ∧ R₁ s.1 ↑l₁ k₁ ∧ R₂ s.2 ↑l₂ k₂

/-- What one pass of a bucketing over two inputs leaves, against `ys`, what the bucketing over
the lists drains: a failure other than the end, with fewer failures to come and `ys` still to
drain; the end, where `ys` ends too; or the bucket `ys` starts with. -/
def Passed (R₁ : σ₁ → Stream'.Seq (κ × ν) → ℕ → Prop) (R₂ : σ₂ → Stream'.Seq κ → ℕ → Prop)
    (aggregate : List ν → ω) (fuel : ℕ) (ys : Stream'.Seq (κ × ω)) (k : ℕ) :
    Outcome (Option (κ × ω)) × Compact κ ν ω × (σ₁ × σ₂) → Prop
  | (.error (.fail e), st, s) => e ≠ .exhausted ∧ ∃ l₁ l₂ k', k' < k ∧
      Matched R₁ R₂ fuel st s l₁ l₂ k' ∧ (overLists aggregate fuel).drain (st, (l₁, l₂)) = ys
  | (.error (.abort _), _, _) => False
  | (.ok none, st, s) => ys = .nil ∧ ∃ l₁ l₂, Matched R₁ R₂ fuel st s l₁ l₂ k ∧
      (overLists aggregate fuel).drain (st, (l₁, l₂)) = .nil
  | (.ok (some b), st, s) => ∃ l₁ l₂, Matched R₁ R₂ fuel st s l₁ l₂ k ∧
      ys = .cons b ((overLists aggregate fuel).drain (st, (l₁, l₂)))

/-- Every pass with budget `n` from a matched state leaves what `Passed` says. -/
def PassesAt (f₁ : Feed σ₁ (κ × ν)) (f₂ : Feed σ₂ κ) (R₁ : σ₁ → Stream'.Seq (κ × ν) → ℕ → Prop)
    (R₂ : σ₂ → Stream'.Seq κ → ℕ → Prop) (aggregate : List ν → ω) (fuel n : ℕ) : Prop :=
  ∀ (st : Compact κ ν ω) (s : σ₁ × σ₂) (l₁ : List (κ × ν)) (l₂ : List κ) (k : ℕ),
    Matched R₁ R₂ fuel st s l₁ l₂ k → toDo st l₁ l₂ + 1 < n →
    Passed R₁ R₂ aggregate fuel ((overLists aggregate fuel).drain (st, (l₁, l₂))) k
      (advance aggregate f₁.onLeft f₂.onRight n st s)

/-- A pass from a matched state leaves what `Passed` says against anything the lists drain alike. -/
theorem PassesAt.congr_drain {n : ℕ} (ih : PassesAt f₁ f₂ R₁ R₂ aggregate fuel n)
    {st : Compact κ ν ω} {s : σ₁ × σ₂} {l₁ : List (κ × ν)} {l₂ : List κ} {k : ℕ}
    (hm : Matched R₁ R₂ fuel st s l₁ l₂ k) (hn : toDo st l₁ l₂ + 1 < n) {ys : Stream'.Seq (κ × ω)}
    (hys : (overLists aggregate fuel).drain (st, (l₁, l₂)) = ys) :
    Passed R₁ R₂ aggregate fuel ys k (advance aggregate f₁.onLeft f₂.onRight n st s) :=
  hys ▸ ih st s l₁ l₂ k hm hn

omit [PartialCompare κ] in
/-- A read of the bucket keys from a matched state fails, leaving the state matched with fewer
failures to come, or reads the head of the list and leaves its tail. -/
theorem Matched.readKey (h₂ : f₂.Transient R₂) {st : Compact κ ν ω} {s₁ : σ₁} {s₂ : σ₂}
    {l₁ : List (κ × ν)} {l₂ : List κ} {k : ℕ} (hm : Matched R₁ R₂ fuel st (s₁, s₂) l₁ l₂ k) :
    (∃ e s₂' k', e ≠ .exhausted ∧ k' < k ∧
      f₂.onRight.pull (s₁, s₂) = (.error (.fail e), (s₁, s₂')) ∧
      Matched R₁ R₂ fuel st (s₁, s₂') l₁ l₂ k') ∨
    ∃ s₂', f₂.onRight.pull (s₁, s₂) = (.ok l₂.head?, (s₁, s₂')) ∧
      ∃ k₁ k₂, k₁ + k₂ ≤ k ∧ R₁ s₁ ↑l₁ k₁ ∧ R₂ s₂' ↑l₂.tail k₂ := by
  obtain ⟨k₁, k₂, hk, hs₁, hs₂⟩ : ∃ k₁ k₂, k₁ + k₂ ≤ k ∧ R₁ s₁ ↑l₁ k₁ ∧ R₂ s₂ ↑l₂ k₂ := hm.inputs
  rcases h₂.pull hs₂ with ⟨e, s₂', k₂', he, hk₂, hp, hs₂'⟩ | ⟨s₂', hp, hs₂'⟩
  · exact .inl ⟨e, s₂', k₁ + k₂', he, by omega, by simp [hp],
      ⟨hm.unbuffered, hm.within, hm.keysEnd, k₁, k₂', le_rfl, hs₁, hs₂'⟩⟩
  · rw [seq_head_ofList] at hp
    rw [seq_tail_ofList] at hs₂'
    exact .inr ⟨s₂', by simp [hp], k₁, k₂, hk, hs₁, hs₂'⟩

/-- **One bucket.** At a bucket whose keys are known, a pass over inputs that fail for a while
leaves what `Passed` says, when every pass with a smaller budget does. -/
theorem PassesAt.bucket (h₁ : f₁.Transient R₁) {n : ℕ}
    (ih : PassesAt f₁ f₂ R₁ R₂ aggregate fuel n) {st : Compact κ ν ω} {s₁ : σ₁} {s₂ : σ₂}
    {l₁ : List (κ × ν)} {l₂ : List κ} {k : ℕ} {first : κ} {next : Option κ}
    (hfirst : st.start = some first) (hnext : st.stop = some next)
    (hm : Matched R₁ R₂ fuel st (s₁, s₂) l₁ l₂ k) (hn : toDo st l₁ l₂ + 1 < n + 1) :
    Passed R₁ R₂ aggregate fuel ((overLists aggregate fuel).drain (st, (l₁, l₂))) k
      (advance aggregate f₁.onLeft f₂.onRight (n + 1) st (s₁, s₂)) := by
  obtain ⟨k₁, k₂, hk, hs₁, hs₂⟩ : ∃ k₁ k₂, k₁ + k₂ ≤ k ∧ R₁ s₁ ↑l₁ k₁ ∧ R₂ s₂ ↑l₂ k₂ := hm.inputs
  have hwithin := hm.within
  obtain ⟨m, hfuel⟩ : ∃ m, fuel = m + 1 := ⟨fuel - 1, by omega⟩
  have hrem : (st.pending.toList ++ l₁).length + l₂.length ≤ toDo st l₁ l₂ := by
    unfold toDo; omega
  have hread : toRead heldSample st l₁ < n := by rw [toRead_heldSample]; omega
  have hkeep := fill_keeps f₁.onLeft first next n st (s₁, s₂)
  rw [advance_of_keys hfirst hnext, fill_eq_readLoop, readLoop_onLeft]
  rw [fill_eq_readLoop, readLoop_onLeft] at hkeep
  rcases fill_resumes h₁ first next hs₁ hread with
    ⟨e, st', s₁', l₁', k₁', he, hk₁, hloop, hs₁', hheld, hlen, hsame⟩ |
    ⟨_, st₃, s₁', l₁', hloop₀, hloop, hs₁', -, hlast⟩
  · -- the samples failed: the bucket keeps what it was filled with, and the lists drain as before
    rw [hloop] at hkeep ⊢
    dsimp only at hkeep ⊢
    obtain ⟨hstart', hstop', hbuf'⟩ := hkeep
    rw [heldSample_eq_none] at hheld
    have hdo : toDo st' l₁' l₂ ≤ toDo st l₁ l₂ := by
      simp only [toDo, hheld, hstop', Option.toList_none, List.nil_append, List.length_append]
      omega
    refine ⟨he, l₁', l₂, k₁' + k₂, by omega, ⟨by rw [hbuf', hm.unbuffered], by omega,
      by rw [hstop']; exact hm.keysEnd, k₁', k₂, le_rfl, hs₁', hs₂⟩, ?_⟩
    refine drain_congr_advance hm.unbuffered (by rw [hbuf', hm.unbuffered]) ?_
    rw [hfuel]
    refine advance_overLists_congr l₂ hfirst hnext (hstart'.trans hfirst) (hstop'.trans hnext) ?_
    have hl₁ : l₁.length ≤ (st.pending.toList ++ l₁).length := by simp
    rw [hsame m (by rw [toRead_of_none (heldSample_eq_none.2 hheld)]; omega),
      readLoop_ofList_fuel (m := m) (holdsOne_fill first next) hread
        (by rw [toRead_heldSample]; omega)]
  · -- the bucket was filled as over the list
    have hheld : st₃.pending.isSome ∨ l₁' = [] ∧ f₁.pull s₁' = (.ok none, s₁') := by
      rcases hlast with ⟨c₀, q, hq⟩ | ⟨c₀, -, hnil, hend⟩
      · exact .inl (by rw [pending_of_onSample_inr hq]; rfl)
      · exact .inr ⟨hnil, hend⟩
    rw [hloop]
    dsimp only
    rw [moreRead_resumes h₁ s₂ hs₁' hheld]
    dsimp only
    have hfill := fill_overList first next st l₁ l₂ (k := n) (by omega)
    rw [fill_eq_readLoop, readLoop_onLeft, hloop₀] at hfill
    simp only [Prod.mk.injEq, true_and, and_true] at hfill
    obtain ⟨rfl, rfl⟩ := hfill
    have htwin := advance_overLists_keys aggregate hfirst hnext l₁ l₂ (m := m) (by omega)
    rw [← hfuel] at htwin
    have hleft : (leftAfter first next (st.pending.toList ++ l₁)).length ≤
        (st.pending.toList ++ l₁).length :=
      (leftAfter_suffix : leftAfter first next _ <:+ _).length_le
    -- after the bucket the lists hold what is left past it, and the state stays matched
    have hafter : ∀ (a : Option κ) (V : List ν),
        toDo
            { pending := (leftAfter first next (st.pending.toList ++ l₁)).head?, start := a,
              stop := none, values := V, buffered := st.buffered }
            (leftAfter first next (st.pending.toList ++ l₁)).tail l₂ +
          st.stop.join.isSome.toNat ≤ toDo st l₁ l₂ ∧
        Matched R₁ R₂ fuel
            { pending := (leftAfter first next (st.pending.toList ++ l₁)).head?, start := a,
              stop := none, values := V, buffered := st.buffered } (s₁', s₂)
            (leftAfter first next (st.pending.toList ++ l₁)).tail l₂ k := by
      intro a V
      have hdo : toDo
            { pending := (leftAfter first next (st.pending.toList ++ l₁)).head?, start := a,
              stop := none, values := V, buffered := st.buffered }
            (leftAfter first next (st.pending.toList ++ l₁)).tail l₂ +
          st.stop.join.isSome.toNat ≤ toDo st l₁ l₂ := by
        simp only [toDo, toList_head?_append_tail, Option.join_none, Option.isSome_none,
          Bool.toNat_false, List.length_append] at hleft ⊢
        omega
      exact ⟨hdo, hm.unbuffered, by omega, by simp, k₁, k₂, hk, hs₁', hs₂⟩
    simp only [finishBucket] at htwin ⊢
    split_ifs at htwin ⊢ with hv hmore
    · -- a bucket with values: both hand it out
      exact ⟨_, l₂, (hafter next []).2, drain_of_advance_some hm.unbuffered hm.unbuffered htwin⟩
    · -- no bucket: the lists hold no key after this bucket, or no sample
      refine ⟨drain_of_advance_none hm.unbuffered (by rw [htwin]), _, l₂, (hafter next _).2,
        drain_of_advance_none hm.unbuffered ?_⟩
      have hvalues : st.values ++ filled first next (st.pending.toList ++ l₁) = [] := by
        simpa using hv
      cases next with
      | none =>
        obtain rfl := hm.keysEnd hnext
        exact advance_overLists_ended _ rfl (by omega)
      | some c =>
        rcases hL : leftAfter first (some c) (st.pending.toList ++ l₁) with _ | ⟨q, rest⟩
        · exact advance_overLists_drained l₂ rfl hvalues (by omega)
        · simp [hL] at hmore
    · -- an empty bucket with samples and keys to come: the next pass starts at the next key
      have hsome : next.isSome = true := by cases next <;> simp_all
      have hkey : st.stop.join.isSome.toNat = 1 := by simp [hnext, hsome]
      have hdo := (hafter next (st.values ++ filled first next (st.pending.toList ++ l₁))).1
      refine ih.congr_drain (hafter next _).2 (by omega)
        (drain_congr_advance hm.unbuffered hm.unbuffered ?_)
      rw [htwin, hfuel]
      exact advance_overLists_fuel _ _ _ _ _ (by omega) (by omega)

/-- **One pass.** A pass over inputs that fail for a while reads the bucket keys it lacks as the
lists do, and then leaves what `Passed` says, when every pass with a smaller budget does. -/
theorem PassesAt.succ (h₁ : f₁.Transient R₁) (h₂ : f₂.Transient R₂) {n : ℕ}
    (ih : PassesAt f₁ f₂ R₁ R₂ aggregate fuel n) : PassesAt f₁ f₂ R₁ R₂ aggregate fuel (n + 1) := by
  rintro st ⟨s₁, s₂⟩ l₁ l₂ k hm hn
  obtain ⟨m, hfuel⟩ : ∃ m, fuel = m + 1 := ⟨fuel - 1, by have := hm.within; omega⟩
  -- at a bucket whose first key is known, the key after it is read first
  have hstart : ∀ (st : Compact κ ν ω) (s₂ : σ₂) (l₂ : List κ) (first : κ),
      st.start = some first → Matched R₁ R₂ fuel st (s₁, s₂) l₁ l₂ k →
      toDo st l₁ l₂ + 1 < n + 1 →
      Passed R₁ R₂ aggregate fuel ((overLists aggregate fuel).drain (st, (l₁, l₂))) k
        (advance aggregate f₁.onLeft f₂.onRight (n + 1) st (s₁, s₂)) := by
    intro st s₂ l₂ first hfirst hm hn
    cases hnext : st.stop with
    | some next => exact ih.bucket h₁ hfirst hnext hm hn
    | none =>
      rcases hm.readKey h₂ with ⟨e, s₂', k', he, hk', hp, hm'⟩ | ⟨s₂', hp, k₁, k₂, hk, hs₁, hs₂⟩
      · rw [advance_stop_fails hfirst hnext hp]
        exact ⟨he, l₁, l₂, k', hk', hm', rfl⟩
      · rw [advance_read_stop hfirst hnext hp]
        have hdrain : (overLists aggregate fuel).drain ({ st with stop := some l₂.head? }, (l₁, l₂.tail)) =
            (overLists aggregate fuel).drain (st, (l₁, l₂)) := by
          refine drain_congr_advance hm.unbuffered hm.unbuffered ?_
          rw [hfuel, advance_read_stop hfirst hnext
            (show ofList.onRight.pull (l₁, l₂) = (.ok l₂.head?, (l₁, l₂.tail)) by simp)]
        rw [← hdrain]
        refine ih.bucket h₁ hfirst rfl ⟨hm.unbuffered, ?_, fun h => ?_, k₁, k₂, hk, hs₁, hs₂⟩ ?_
        · rw [toDo_read_stop hnext]
          exact hm.within
        · simp only [Option.some.injEq, List.head?_eq_none_iff] at h
          simp [h]
        · rwa [toDo_read_stop hnext]
  cases hfirst : st.start with
  | some first => exact hstart st s₂ l₂ first hfirst hm hn
  | none =>
    rcases hm.readKey h₂ with ⟨e, s₂', k', he, hk', hp, hm'⟩ | ⟨s₂', hp, k₁, k₂, hk, hs₁, hs₂⟩
    · rw [advance_start_fails hfirst hp]
      exact ⟨he, l₁, l₂, k', hk', hm', rfl⟩
    · cases l₂ with
      | nil =>
        -- no first key: the pass finds nothing, and the lists drain nothing
        have hend : (overLists aggregate fuel).drain (st, (l₁, [])) = .nil :=
          drain_of_advance_none hm.unbuffered (advance_overLists_ended l₁ hfirst (by omega))
        have hm₀ : Matched R₁ R₂ fuel st (s₁, s₂') l₁ [] k :=
          ⟨hm.unbuffered, hm.within, hm.keysEnd, k₁, k₂, hk, hs₁, hs₂⟩
        cases hstop : st.stop with
        | some x =>
          rw [advance_no_start hfirst hstop hp]
          exact ⟨hend, l₁, [], hm₀, hend⟩
        | none =>
          -- the key after the missing first key is read as well
          rcases hm₀.readKey h₂ with ⟨e, s₂'', k', he, hk', hp', hm'⟩ |
            ⟨s₂'', hp', k₁', k₂', hk'', hs₁', hs₂'⟩
          · rw [advance_no_start_read hfirst hstop hp hp']
            exact ⟨he, l₁, [], k', hk', hm', rfl⟩
          · rw [advance_no_start_read hfirst hstop hp hp']
            have hdo := toDo_read_stop hstop l₁ []
            have hwithin := hm.within
            simp only [List.tail_nil] at hdo
            exact ⟨hend, l₁, [], ⟨hm.unbuffered, by omega, fun _ => rfl, k₁', k₂', hk'', hs₁', hs₂'⟩,
              drain_of_advance_none hm.unbuffered
                (advance_overLists_ended l₁
                  (show ({ st with stop := some ([] : List κ).head? } : Compact κ ν ω).start = none
                    from hfirst) (Nat.zero_lt_of_lt hwithin))⟩
      | cons b t =>
        -- the first key is read: the pass goes on at its bucket
        rw [advance_read_start hfirst hp]
        have hdrain : (overLists aggregate fuel).drain ({ st with start := some b }, (l₁, t)) =
            (overLists aggregate fuel).drain (st, (l₁, b :: t)) := by
          refine drain_congr_advance hm.unbuffered hm.unbuffered ?_
          rw [hfuel, advance_read_start hfirst
            (show ofList.onRight.pull (l₁, b :: t) = (.ok (some b), (l₁, t)) by simp)]
        rw [← hdrain]
        have hdo : toDo st l₁ t + 1 = toDo st l₁ (b :: t) := by simp [toDo]; omega
        have := hm.within
        exact hstart _ s₂' t b rfl ⟨hm.unbuffered, by simp only [toDo_with_start]; omega,
          fun h => absurd (hm.keysEnd h) (List.cons_ne_nil b t), k₁, k₂, hk, hs₁, hs₂⟩
          (by simp only [toDo_with_start]; omega)

/-- **Every pass.** Over inputs that fail for a while, a pass from a matched state within its
budget leaves what `Passed` says. -/
theorem passesAt (h₁ : f₁.Transient R₁) (h₂ : f₂.Transient R₂) (aggregate : List ν → ω) :
    ∀ n, PassesAt f₁ f₂ R₁ R₂ aggregate fuel n
  | 0 => fun _ _ _ _ _ _ hn => absurd hn (Nat.not_lt_zero _)
  | n + 1 => (passesAt h₁ h₂ aggregate n).succ h₁ h₂

/-! ## The bucketing as an input -/

/-- A bucketing over inputs that fail for a while, related to `ys`, what the bucketing over the
lists the inputs still hold drains, with at most `k` failures to come: with nothing kept, matched
with lists that drain `ys`; with a bucket kept, matched with lists that drain the rest of `ys`;
with a failure kept, matched with lists that drain `ys` with fewer failures to come. -/
def Bucketed (aggregate : List ν → ω) (fuel : ℕ) (R₁ : σ₁ → Stream'.Seq (κ × ν) → ℕ → Prop)
    (R₂ : σ₂ → Stream'.Seq κ → ℕ → Prop) (p : Compact κ ν ω × (σ₁ × σ₂))
    (ys : Stream'.Seq (κ × ω)) (k : ℕ) : Prop :=
  let st : Compact κ ν ω := { p.1 with buffered := none }
  match p.1.buffered with
  | none => ∃ l₁ l₂, Matched R₁ R₂ fuel p.1 p.2 l₁ l₂ k ∧
      ys = (overLists aggregate fuel).drain (p.1, (l₁, l₂))
  | some (.ok b) => ∃ l₁ l₂, Matched R₁ R₂ fuel st p.2 l₁ l₂ k ∧
      ys = .cons b ((overLists aggregate fuel).drain (st, (l₁, l₂)))
  | some (.error e) => e ≠ .exhausted ∧ ∃ l₁ l₂ k', k' < k ∧ Matched R₁ R₂ fuel st p.2 l₁ l₂ k' ∧
      ys = (overLists aggregate fuel).drain (st, (l₁, l₂))

section Kept

variable {samples : Feed σ (κ × ν)} {buckets : Feed σ κ} {st : Compact κ ν ω} {s : σ}

/-- With an answer kept, a look ahead moves nothing. -/
theorem feed_hasNext_kept (h : st.buffered.isSome) :
    (feed aggregate samples buckets fuel).hasNext (st, s) = (.ok true, (st, s)) := by
  simp [feed, hasNext, h]

/-- With an answer kept, the next call hands it out and keeps nothing. -/
theorem feed_tryNext_kept {r : Except SeqError (κ × ω)} (h : st.buffered = some r) :
    (feed aggregate samples buckets fuel).tryNext (st, s) =
      (match r with
        | .ok b => .ok b
        | .error e => .error (.fail e), ({ st with buffered := none }, s)) := by
  cases r <;> simp [feed, tryNext, hasNext, h]

end Kept

/-- A look ahead from a related state leaves it related: it answers `false` where `ys` ends, or
keeps a bucket or a failure. -/
theorem hasNext_bucketed (h₁ : f₁.Transient R₁) (h₂ : f₂.Transient R₂)
    {p : Compact κ ν ω × (σ₁ × σ₂)} {ys : Stream'.Seq (κ × ω)} {k : ℕ}
    (hp : Bucketed aggregate fuel R₁ R₂ p ys k) :
    ∃ b p', (feed aggregate f₁.onLeft f₂.onRight fuel).hasNext p = (.ok b, p') ∧
      Bucketed aggregate fuel R₁ R₂ p' ys k ∧
      (b = false ∧ ys = .nil ∨ b = true ∧ p'.1.buffered.isSome) := by
  obtain ⟨st, s⟩ := p
  cases hb : st.buffered with
  | some r => exact ⟨true, (st, s), feed_hasNext_kept (by simp [hb]), hp, .inr ⟨rfl, by simp [hb]⟩⟩
  | none =>
    -- the look ahead runs one pass, and keeps what it finds
    simp only [Bucketed, hb] at hp
    obtain ⟨l₁, l₂, hm, rfl⟩ := hp
    have hpass := passesAt h₁ h₂ aggregate fuel st s l₁ l₂ k hm hm.within
    rcases hadv : advance aggregate f₁.onLeft f₂.onRight fuel st s with ⟨r, st', s'⟩
    rw [hadv] at hpass
    rcases r with (e | r) | (_ | b)
    · obtain ⟨he, l₁', l₂', k', hk', hm', hdrain⟩ := hpass
      refine ⟨true, ({ st' with buffered := some (.error e) }, s'),
        by simp [feed, hasNext, hb, hadv], ?_, .inr ⟨rfl, rfl⟩⟩
      simp only [Bucketed]
      rw [unkeep_keep hm'.unbuffered]
      exact ⟨he, l₁', l₂', k', hk', hm', hdrain.symm⟩
    · exact hpass.elim
    · obtain ⟨hnil, l₁', l₂', hm', hnil'⟩ := hpass
      refine ⟨false, (st', s'), by simp [feed, hasNext, hb, hadv], ?_, .inl ⟨rfl, hnil⟩⟩
      simp only [Bucketed, hm'.unbuffered]
      exact ⟨l₁', l₂', hm', hnil.trans hnil'.symm⟩
    · obtain ⟨l₁', l₂', hm', hcons⟩ := hpass
      refine ⟨true, ({ st' with buffered := some (.ok b) }, s'),
        by simp [feed, hasNext, hb, hadv], ?_, .inr ⟨rfl, rfl⟩⟩
      simp only [Bucketed]
      rw [unkeep_keep hm'.unbuffered]
      exact ⟨l₁', l₂', hm', hcons⟩

/-- The next call from a related state fails with a failure to come, or hands out the head of
`ys` and leaves a state related to its tail. -/
theorem tryNext_bucketed (h₁ : f₁.Transient R₁) (h₂ : f₂.Transient R₂)
    {p : Compact κ ν ω × (σ₁ × σ₂)} {ys : Stream'.Seq (κ × ω)} {k : ℕ}
    (hp : Bucketed aggregate fuel R₁ R₂ p ys k) :
    Fails (feed aggregate f₁.onLeft f₂.onRight fuel).tryNext (Bucketed aggregate fuel R₁ R₂) p ys k ∨
      ∃ p', (feed aggregate f₁.onLeft f₂.onRight fuel).tryNext p = (Feed.answer ys, p') ∧
        Bucketed aggregate fuel R₁ R₂ p' ys.tail k := by
  obtain ⟨b, ⟨st', s'⟩, hh, hp', ⟨rfl, rfl⟩ | ⟨rfl, hsome⟩⟩ := hasNext_bucketed h₁ h₂ hp
  · -- `ys` has ended: the call finds the end
    have hh' : hasNext aggregate f₁.onLeft f₂.onRight fuel p.1 p.2 = (.ok false, st', s') := by
      simpa [feed] using hh
    refine .inr ⟨(st', s'), by simp [feed, tryNext, hh'], by simpa using hp'⟩
  · have hh' : hasNext aggregate f₁.onLeft f₂.onRight fuel p.1 p.2 = (.ok true, st', s') := by
      simpa [feed] using hh
    have hkept : hasNext aggregate f₁.onLeft f₂.onRight fuel st' s' = (.ok true, st', s') := by
      simp_all [hasNext]
    have htry : (feed aggregate f₁.onLeft f₂.onRight fuel).tryNext p =
        (feed aggregate f₁.onLeft f₂.onRight fuel).tryNext (st', s') := by
      simp only [feed, tryNext, hh', hkept]
    cases hbuf : st'.buffered with
    | none => simp [hbuf] at hsome
    | some r =>
      have hcall := htry.trans (feed_tryNext_kept hbuf)
      cases r with
      | ok a =>
        -- a kept bucket: it is the head of `ys`
        simp only [Bucketed, hbuf] at hp'
        obtain ⟨l₁, l₂, hm, rfl⟩ := hp'
        refine .inr ⟨({ st' with buffered := none }, s'), by rw [hcall]; simp, ?_⟩
        simp only [Bucketed, Stream'.Seq.tail_cons]
        exact ⟨l₁, l₂, hm, rfl⟩
      | error e =>
        -- a kept failure: one of the failures to come
        simp only [Bucketed, hbuf] at hp'
        obtain ⟨he, l₁, l₂, k', hk', hm, hys⟩ := hp'
        refine .inl ⟨e, ({ st' with buffered := none }, s'), k', he, hk', hcall, ?_⟩
        simp only [Bucketed]
        exact ⟨l₁, l₂, hm, hys⟩

end Passes

end Compact

/-- **The bucketing resumes** where the bucketing over the lists its inputs still hold is, over
samples and bucket keys that fail for a while, within its budget. -/
theorem Feed.Transient.compact [PartialCompare κ] {f₁ : Feed σ₁ (κ × ν)} {f₂ : Feed σ₂ κ}
    {R₁ : σ₁ → Stream'.Seq (κ × ν) → ℕ → Prop} {R₂ : σ₂ → Stream'.Seq κ → ℕ → Prop}
    (h₁ : f₁.Transient R₁) (h₂ : f₂.Transient R₂) (aggregate : List ν → ω) (fuel : ℕ) :
    (Compact.feed aggregate f₁.onLeft f₂.onRight fuel).Resumes
      (Compact.Bucketed aggregate fuel R₁ R₂) where
  hasNext hp := by
    obtain ⟨b, ⟨st', s'⟩, hh, hp', hb⟩ := Compact.hasNext_bucketed h₁ h₂ hp
    refine ⟨b, (st', s'), hh, hp', ?_⟩
    rcases hb with ⟨rfl, rfl⟩ | ⟨rfl, hsome⟩
    · exact .inl (by simp)
    · cases hbuf : st'.buffered with
      | none => simp [hbuf] at hsome
      | some r =>
        cases r with
        | ok a =>
          -- a kept bucket: `ys` goes on
          simp only [Compact.Bucketed, hbuf] at hp'
          obtain ⟨l₁, l₂, -, rfl⟩ := hp'
          exact .inl (by simp)
        | error e =>
          -- a kept failure: the next call fails
          simp only [Compact.Bucketed, hbuf] at hp'
          exact .inr ⟨rfl, e, _, hp'.1, Compact.feed_tryNext_kept hbuf⟩
  tryNext hp := Compact.tryNext_bucketed h₁ h₂ hp

end LazySeq
