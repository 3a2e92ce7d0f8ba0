import Mathlib
import LazySeq.Proofs.Stream.Loop
import LazySeq.Proofs.Stream.Resume
import LazySeq.Series.Linearize
import LazySeq.Series.Samples
import LazySeq.Series.Compact

/-!
# Budgeted series adapters resume where they stopped

A segmentation, a sample merge and a bucketing read their inputs in loops with a step budget
(`Feed.readLoop`), and keep what a loop had gathered when one of its reads fails: the run being
fitted, the observation being assembled, the bucket being filled. Each is compared here with the
same adapter over inputs that hold the same finite lists and never fail: over inputs that fail for
a while, within a budget beyond those lists, it hands out what that adapter drains.

* `Feed.Transient.linearize`: the segmentation.
* `Feed.Transient.sampleMerge`: the sample merge.
-/

namespace LazySeq

open Feed

variable {σ κ R : Type}

/-! ## The segmentation -/

namespace Linearize

variable [FitArith R] [Axis κ R] {epsilon : R} {fuel : ℕ}

/-- What one sample does to the run being read: starts it, extends it, or breaks it, handing out
the finished segment and starting the next run at the sample. -/
def onSample (epsilon : R) (current : Option (κ × Fit R)) (p : κ × R) :
    Option (κ × Fit R) ⊕ (Option (Segment κ R) × Option (κ × Fit R)) :=
  match current with
  | none => .inl (some (p.1, Fit.single p.2))
  | some (start, fit) =>
    match fit.extend (offsetFrom p.1 start) p.2 epsilon with
    | some fit => .inl (some (start, fit))
    | none => .inr (some (fit.finish start), some (p.1, Fit.single p.2))

/-- At the end of the samples the run read so far is the last segment. -/
def atEnd (current : Option (κ × Fit R)) : Option (Segment κ R) × Option (κ × Fit R) :=
  (current.map fun (start, fit) => fit.finish start, none)

/-- The segmentation reads its samples in a reading loop that holds nothing back. -/
theorem advance_eq (samples : Feed σ (κ × R)) :
    ∀ (n : ℕ) (current : Option (κ × Fit R)) (s : σ),
      advance epsilon samples n current s =
        samples.readLoop (fun _ => none) (onSample epsilon) atEnd n current s
  | 0, _, _ => rfl
  | n + 1, current, s => by
    simp only [advance, Feed.readLoop]
    rcases samples.pull s with ⟨_ | _ | ⟨t, y⟩, s'⟩
    · rfl
    · rfl
    · rcases current with _ | ⟨start, fit⟩
      · simp [Feed.afterRead, onSample, advance_eq samples n]
      · rcases hext : fit.extend (offsetFrom t start) y epsilon with _ | fit'
        · simp [Feed.afterRead, onSample, hext]
        · simp [Feed.afterRead, onSample, hext, advance_eq samples n]

/-- A broken run hands out a segment. -/
theorem onSample_inr {current current' : Option (κ × Fit R)} {p : κ × R}
    {g : Option (Segment κ R)} (h : onSample epsilon current p = .inr (g, current')) :
    g.isSome := by
  unfold onSample at h
  split at h
  · cases h
  · split at h
    · cases h
    · cases h
      rfl

/-- The segmentation over the samples of a list. -/
abbrev overList (epsilon : R) (fuel : ℕ) : Feed (Linearize κ R × List (κ × R)) (Segment κ R) :=
  feed epsilon fuel Feed.ofList

variable {samples : Feed σ (κ × R)}

@[simp] theorem hasNext_some (x : Except SeqError (Segment κ R)) (current : Option (κ × Fit R))
    (s : σ) :
    hasNext epsilon samples fuel ⟨current, some x⟩ s = (.ok true, ⟨current, some x⟩, s) := by
  simp [hasNext]

theorem hasNext_none (current : Option (κ × Fit R)) (s : σ) :
    hasNext epsilon samples fuel ⟨current, none⟩ s =
      match advance epsilon samples fuel current s with
      | (.ok none, current, s) => (.ok false, ⟨current, none⟩, s)
      | (.ok (some g), current, s) => (.ok true, ⟨current, some (.ok g)⟩, s)
      | (.error (.fail e), current, s) => (.ok true, ⟨current, some (.error e)⟩, s)
      | (.error (.abort r), current, s) => (.error (.abort r), ⟨current, none⟩, s) :=
  rfl

/-- The segmentation over a list drains alike from two states whose passes read alike. -/
theorem drain_congr_advance {c c' : Option (κ × Fit R)} {l l' : List (κ × R)}
    (h : advance epsilon ofList fuel c' l' = advance epsilon ofList fuel c l) :
    (overList epsilon fuel).drain (⟨c', none⟩, l') = (overList epsilon fuel).drain (⟨c, none⟩, l) :=
  drain_congr_hasNext (by simp only [overList, feed, hasNext_none, h])

/-- A segment read ahead is handed out first. -/
theorem drain_buffered (g : Segment κ R) (c : Option (κ × Fit R)) (l : List (κ × R)) :
    (overList epsilon fuel).drain (⟨c, some (.ok g)⟩, l) =
      .cons g ((overList epsilon fuel).drain (⟨c, none⟩, l)) :=
  drain_of_pull_some (by simp [overList, feed, Feed.pull, tryNext])

/-- What the segmentation over a list drains when its pass finds a segment. -/
theorem drain_of_advance_some {c c' : Option (κ × Fit R)} {l l' : List (κ × R)} {g : Segment κ R}
    (h : advance epsilon ofList fuel c l = (.ok (some g), c', l')) :
    (overList epsilon fuel).drain (⟨c, none⟩, l) =
      (overList epsilon fuel).drain (⟨c', some (.ok g)⟩, l') := by
  have hh : (overList epsilon fuel).hasNext (⟨c, none⟩, l) = (.ok true, (⟨c', some (.ok g)⟩, l')) := by
    simp [overList, feed, hasNext_none, h]
  exact (drain_congr (pull_of_hasNext_again hh (by simp [overList, feed]))).symm

/-- The segmentation over a list drains nothing when its pass finds nothing. -/
theorem drain_of_advance_none {c c' : Option (κ × Fit R)} {l l' : List (κ × R)}
    (h : advance epsilon ofList fuel c l = (.ok none, c', l')) :
    (overList epsilon fuel).drain (⟨c, none⟩, l) = .nil :=
  drain_of_hasNext_false (show (overList epsilon fuel).hasNext (⟨c, none⟩, l) =
    (.ok false, (⟨c', none⟩, l')) by simp [overList, feed, hasNext_none, h])

/-- Past the end of its samples the segmentation finds nothing, and reads the end again. -/
theorem advance_at_end {s : σ} (hp : samples.pull s = (.ok none, s)) (hfuel : 0 < fuel) :
    advance epsilon samples fuel none s = (.ok none, none, s) := by
  obtain ⟨n, rfl⟩ := Nat.exists_eq_add_of_lt hfuel
  simp [advance, hp]

/-- What a segmentation over samples that fail for a while still hands out: what the segmentation
over the finite list of samples still to come, shorter than the budget, drains from the same run.
A segment read ahead comes first; a failure read ahead is handed out first and counts among the
failures to come. -/
def Segments (epsilon : R) (fuel : ℕ) (R₀ : σ → Stream'.Seq (κ × R) → ℕ → Prop) :
    Linearize κ R × σ → Stream'.Seq (Segment κ R) → ℕ → Prop
  | (⟨current, none⟩, s), ys, k => ∃ l : List (κ × R), R₀ s ↑l k ∧ l.length < fuel ∧
      ys = (overList epsilon fuel).drain (⟨current, none⟩, l)
  | (⟨current, some (.ok g)⟩, s), ys, k => ∃ l : List (κ × R), R₀ s ↑l k ∧ l.length < fuel ∧
      ys = (overList epsilon fuel).drain (⟨current, some (.ok g)⟩, l)
  | (⟨current, some (.error e)⟩, s), ys, k => e ≠ .exhausted ∧
      ∃ (l : List (κ × R)) (k' : ℕ), k' < k ∧ R₀ s ↑l k' ∧ l.length < fuel ∧
        ys = (overList epsilon fuel).drain (⟨current, none⟩, l)

variable {R₀ : σ → Stream'.Seq (κ × R) → ℕ → Prop}

/-- **A pass resumes.** Over samples that fail for a while, within a budget beyond the samples
still to read, a pass of the segmentation fails where the pass over the list reads on to the same
segment, or finds the segment the pass over the list finds. -/
theorem advance_resumes (hin : samples.Transient R₀) (epsilon : R) (current : Option (κ × Fit R))
    {s : σ} {l : List (κ × R)} {k : ℕ} (hl : R₀ s ↑l k) (hlen : l.length < fuel) :
    FailsAlong samples R₀ (fun _ => none) (onSample epsilon) atEnd fuel current s l k ∨
      ReadsAlong samples R₀ (fun _ => none) (onSample epsilon) atEnd fuel current s l k :=
  hin.readLoop holdsOne_none hl (by rwa [toRead_of_none rfl])

/-- A look ahead keeps what the segmentation still hands out, and ends with a segment or a failure
kept, or at the end, where it would end again. -/
theorem hasNext_segments (hin : samples.Transient R₀) {st : Linearize κ R} {s : σ}
    {ys : Stream'.Seq (Segment κ R)} {k : ℕ} (hs : Segments epsilon fuel R₀ (st, s) ys k) :
    ∃ b st' s', hasNext epsilon samples fuel st s = (.ok b, st', s') ∧
      hasNext epsilon samples fuel st' s' = (.ok b, st', s') ∧
      Segments epsilon fuel R₀ (st', s') ys k ∧
      (b = true ∧ st'.buffered.isSome ∨ b = false ∧ st'.buffered = none ∧ ys = .nil) := by
  obtain ⟨current, buffered⟩ := st
  cases buffered with
  | some x =>
    exact ⟨true, ⟨current, some x⟩, s, hasNext_some x current s, hasNext_some x current s, hs,
      .inl ⟨rfl, rfl⟩⟩
  | none =>
    obtain ⟨l, hl, hlen, rfl⟩ := hs
    rcases advance_resumes hin epsilon current hl hlen with
      ⟨e, c', s', l', k', he, hk, hloop, hs', -, hl', hsame⟩ |
      ⟨b, c', s', l', hloop₀, hloop, hs', hl', hend⟩
    · -- a failed read: the run read so far is kept, and so is the failure
      have hrun : advance epsilon samples fuel current s = (.error (.fail e), c', s') := by
        rw [advance_eq, hloop]
      refine ⟨true, ⟨c', some (.error e)⟩, s', by rw [hasNext_none, hrun],
        hasNext_some _ c' s', ⟨he, l', k', hk, hs', by omega, ?_⟩, .inl ⟨rfl, rfl⟩⟩
      refine (drain_congr_advance ?_).symm
      rw [advance_eq, advance_eq, hsame fuel (by rw [toRead_of_none rfl]; omega)]
    · have hrun₀ : advance epsilon ofList fuel current l = (.ok b, c', l') := by
        rw [advance_eq, hloop₀]
      have hrun : advance epsilon samples fuel current s = (.ok b, c', s') := by
        rw [advance_eq, hloop]
      cases b with
      | some g =>
        refine ⟨true, ⟨c', some (.ok g)⟩, s', by rw [hasNext_none, hrun], hasNext_some _ c' s',
          ⟨l', hs', by omega, drain_of_advance_some hrun₀⟩, .inl ⟨rfl, rfl⟩⟩
      | none =>
        -- nothing found: the pass stopped at the end of both inputs, with no run left
        obtain ⟨c₀, a, hstep⟩ | ⟨c₀, hstop, rfl, hend⟩ := hend
        · exact absurd (onSample_inr hstep) (by simp)
        · obtain rfl : c' = none := (Prod.mk.inj hstop).2.symm
          have hnil := drain_of_advance_none hrun₀
          refine ⟨false, ⟨none, none⟩, s', by rw [hasNext_none, hrun], ?_,
            ⟨[], hs', by omega, ?_⟩, .inr ⟨rfl, rfl, hnil⟩⟩
          · rw [hasNext_none, advance_at_end hend (by omega)]
          · rw [hnil, drain_of_advance_none (advance_at_end (by simp) (by omega))]

/-- A `tryNext` hands out what its look ahead kept, or finds the end. -/
theorem tryNext_of_settled {st st' : Linearize κ R} {s s' : σ} {b : Bool}
    (hh : hasNext epsilon samples fuel st s = (.ok b, st', s'))
    (hset : b = true ∧ st'.buffered.isSome ∨ b = false ∧ st'.buffered = none) :
    tryNext epsilon samples fuel st s = match st'.buffered with
      | some (.ok g) => (.ok g, { st' with buffered := none }, s')
      | some (.error e) => (.error (.fail e), { st' with buffered := none }, s')
      | none => (Outcome.exhausted, st', s') := by
  rcases hset with ⟨rfl, hsome⟩ | ⟨rfl, hnone⟩
  · obtain ⟨x, hx⟩ := Option.isSome_iff_exists.1 hsome
    rw [hx]
    cases x <;> simp [tryNext, hh, hx]
  · simp [tryNext, hh, hnone]

end Linearize

/-- **The segmentation resumes** where the segmentation over the list of samples still to come
is, over samples that fail for a while and hold a finite list shorter than its budget. -/
theorem Feed.Transient.linearize [FitArith R] [Axis κ R] {samples : Feed σ (κ × R)}
    {R₀ : σ → Stream'.Seq (κ × R) → ℕ → Prop} (hin : samples.Transient R₀) (epsilon : R)
    (fuel : ℕ) : (Linearize.feed epsilon fuel samples).Transient (Linearize.Segments epsilon fuel R₀) where
  hasNext := by
    rintro ⟨st, s⟩ ys k hs
    obtain ⟨b, ⟨c', buf⟩, s', hh, hh', hs', hset⟩ := Linearize.hasNext_segments hin hs
    refine ⟨b, (⟨c', buf⟩, s'), by simp [Linearize.feed, hh], by simp [Linearize.feed, hh'], hs', ?_⟩
    rcases hset with ⟨rfl, hsome⟩ | ⟨rfl, -, rfl⟩
    · obtain ⟨x, rfl⟩ := Option.isSome_iff_exists.1 hsome
      cases x with
      | ok g =>
        obtain ⟨l, -, -, rfl⟩ := hs'
        exact .inl (by rw [Linearize.drain_buffered]; rfl)
      | error e =>
        -- a kept failure is handed out by the next call
        exact .inr ⟨rfl, e, (⟨c', none⟩, s'), hs'.1, by simp [Linearize.feed, Linearize.tryNext]⟩
    · exact .inl rfl
  tryNext := by
    rintro ⟨st, s⟩ ys k hs
    obtain ⟨b, ⟨c', buf⟩, s', hh, -, hs', hset⟩ := Linearize.hasNext_segments hin hs
    have ht := Linearize.tryNext_of_settled hh (hset.imp (fun h => ⟨h.1, h.2⟩) fun h => ⟨h.1, h.2.1⟩)
    rcases hset with ⟨rfl, hsome⟩ | ⟨rfl, rfl, rfl⟩
    · obtain ⟨x, rfl⟩ := Option.isSome_iff_exists.1 hsome
      cases x with
      | ok g =>
        obtain ⟨l, hl, hlen, hys⟩ := hs'
        rw [Linearize.drain_buffered] at hys
        subst hys
        exact .inr ⟨(⟨c', none⟩, s'), by simp [Linearize.feed, ht],
          ⟨l, hl, hlen, by rw [Stream'.Seq.tail_cons]⟩⟩
      | error e =>
        obtain ⟨he, l, k', hk, hl, hlen, rfl⟩ := hs'
        exact .inl ⟨e, (⟨c', none⟩, s'), k', he, hk, by simp [Linearize.feed, ht],
          ⟨l, hl, hlen, rfl⟩⟩
    · exact .inr ⟨(⟨c', none⟩, s'), by simp [Linearize.feed, ht], by simpa using hs'⟩

/-! ## The sample merge -/

namespace SampleMerge

variable {ν : Type} [WeakEq κ] {t : Tolerance} {fuel : ℕ}

/-- What one sample does to the observation at `key`: a sample of a weakly equal key is the latest
value of its stream, and the first of another key is held for the next observation. -/
def onSample (t : Tolerance) (key : κ) (st : SampleMerge κ ν) (p : ℕ × κ × ν) :
    SampleMerge κ ν ⊕ (Unit × SampleMerge κ ν) :=
  if weakEq t p.2.1 key then .inl { st with latest := st.latest.set! p.1 (some p.2.2) }
  else .inr ((), { st with pending := some p })

/-- Gathering the samples of a key is a reading loop that holds nothing back. -/
theorem gather_eq_readLoop (merged : Feed σ (ℕ × κ × ν)) (key : κ) :
    ∀ (n : ℕ) (st : SampleMerge κ ν) (s : σ),
      gather t merged key n st s =
        merged.readLoop (fun _ => none) (onSample t key) (fun st => ((), st)) n st s
  | 0, _, _ => rfl
  | n + 1, st, s => by
    simp only [gather, Feed.readLoop]
    rcases merged.pull s with ⟨_ | _ | ⟨i, k, v⟩, s'⟩
    · rfl
    · rfl
    · by_cases hk : weakEq t k key = true
      · simp [Feed.afterRead, onSample, hk, gather_eq_readLoop merged key n]
      · simp [Feed.afterRead, onSample, hk]

/-- Gathering keeps the key of the observation. -/
theorem gather_current (merged : Feed σ (ℕ × κ × ν)) (key : κ) (n : ℕ) {st : SampleMerge κ ν}
    (s : σ) (h : st.current = some key) : (gather t merged key n st s).2.1.current = some key := by
  rw [gather_eq_readLoop]
  refine readLoop_keeps merged (fun st : SampleMerge κ ν => st.current = some key)
    (fun hh _ => by cases hh) ?_ ?_ (fun hc => hc) n s h
  · intro c a c' hs hc
    unfold onSample at hs
    split at hs
    · cases hs
      exact hc
    · cases hs
  · intro c a b c' hs hc
    unfold onSample at hs
    split at hs
    · cases hs
    · cases hs
      exact hc

/-- The observation begun at a tagged sample: its key, and its stream's latest value. -/
def begin (st : SampleMerge κ ν) (p : ℕ × κ × ν) : SampleMerge κ ν :=
  { pending := none, current := some p.2.1, latest := st.latest.set! p.1 (some p.2.2) }

/-- Whether an observation is begun or a sample held for one. -/
def ready (st : SampleMerge κ ν) : Bool := st.pending.isSome || st.current.isSome

omit [WeakEq κ] in
@[simp] theorem ready_begin (st : SampleMerge κ ν) (p : ℕ × κ × ν) : ready (begin st p) = true :=
  rfl

variable {merged : Feed σ (ℕ × κ × ν)} {st : SampleMerge κ ν} {s : σ}

omit [WeakEq κ] in
theorem hasNext_ready (h : ready st = true) : hasNext merged st s = (.ok true, s) := by
  unfold hasNext
  rw [show (st.pending.isSome || st.current.isSome) = true from h]
  rfl

omit [WeakEq κ] in
theorem hasNext_idle (h : ready st = false) : hasNext merged st s = merged.hasNext s := by
  unfold hasNext
  rw [show (st.pending.isSome || st.current.isSome) = false from h]
  rfl

/-- A begun observation whose gathering fails keeps what was gathered. -/
theorem tryNext_current_error {key : κ} {st' : SampleMerge κ ν} {s' : σ} {e : Halt}
    (h : st.current = some key) (hg : gather t merged key fuel st s = (.error e, st', s')) :
    tryNext t merged fuel st s = (.error e, st', s') := by
  simp [tryNext, h, hg]

/-- A begun observation is completed by gathering the samples of its key. -/
theorem tryNext_current_ok {key : κ} {st' : SampleMerge κ ν} {s' : σ}
    (h : st.current = some key) (hg : gather t merged key fuel st s = (.ok (), st', s')) :
    tryNext t merged fuel st s = (.ok (key, st'.latest.toList), { st' with current := none }, s') := by
  simp [tryNext, h, hg]

/-- A sample held for the next observation begins it. -/
theorem tryNext_pending {p : ℕ × κ × ν} (hc : st.current = none) (hp : st.pending = some p) :
    tryNext t merged fuel st s = tryNext t merged fuel (begin st p) s := by
  simp [tryNext, hc, hp, begin]

/-- With nothing begun or held, the next sample is read, and begins the observation. -/
theorem tryNext_idle (hc : st.current = none) (hp : st.pending = none) :
    tryNext t merged fuel st s =
      match merged.pull s with
      | (.error e, s) => (.error e, st, s)
      | (.ok none, s) => (Outcome.exhausted, st, s)
      | (.ok (some p), s) => tryNext t merged fuel (begin st p) s := by
  simp only [tryNext, hc, hp]
  rcases merged.pull s with ⟨_ | _ | p, s'⟩
  · rfl
  · rfl
  · simp [begin]

/-- The sample merge over the tagged samples of a list. -/
abbrev overList (t : Tolerance) (fuel : ℕ) :
    Feed (SampleMerge κ ν × List (ℕ × κ × ν)) (κ × List (Option ν)) :=
  feed t Feed.ofList fuel

@[simp] theorem overList_hasNext (st : SampleMerge κ ν) (l : List (ℕ × κ × ν)) :
    (overList t fuel).hasNext (st, l) = (.ok (ready st || !l.isEmpty), (st, l)) := by
  cases h : ready st
  · simp [overList, feed, hasNext_idle h, Feed.ofList]
  · simp [overList, feed, hasNext_ready h]

@[simp] theorem overList_tryNext (st : SampleMerge κ ν) (l : List (ℕ × κ × ν)) :
    (overList t fuel).tryNext (st, l) =
      ((tryNext t ofList fuel st l).1, (tryNext t ofList fuel st l).2.1,
        (tryNext t ofList fuel st l).2.2) :=
  rfl

/-- Over a list shorter than the budget an observation begun or held is completed. -/
theorem overList_tryNext_ready {l : List (ℕ × κ × ν)} (hr : ready st = true)
    (hlen : l.length < fuel) :
    ∃ o q, (overList t fuel).tryNext (st, l) = (.ok o, q) := by
  -- an observation held is begun first, and then completed
  have hbegun : ∀ {st : SampleMerge κ ν} {key : κ}, st.current = some key →
      ∃ o q, (overList t fuel).tryNext (st, l) = (.ok o, q) := by
    intro st key hkey
    obtain ⟨b, st', l', hrun⟩ := readLoop_ofList_settles
      (holdsOne_none : HoldsOne (fun _ => none) (onSample t key)) (fun st => ((), st)) st l
    rw [toRead_of_none rfl] at hrun
    have hg : gather t ofList key fuel st l = (.ok (), st', l') := by
      rw [gather_eq_readLoop, hrun fuel hlen]
    exact ⟨(key, st'.latest.toList), ({ st' with current := none }, l'),
      by simp [overList, feed, tryNext_current_ok hkey hg]⟩
  cases hc : st.current with
  | some key => exact hbegun hc
  | none =>
    obtain ⟨p, hp⟩ := Option.isSome_iff_exists.1 (by simpa [ready, hc] using hr)
    obtain ⟨o, q, h⟩ := @hbegun (begin st p) _ rfl
    exact ⟨o, q, by simpa [overList, feed, tryNext_pending hc hp] using h⟩

/-- What the sample merge over a list hands out from an idle state is what it hands out once the
first sample has begun the observation. -/
theorem drain_idle {p : ℕ × κ × ν} {l : List (ℕ × κ × ν)} (hc : st.current = none)
    (hp : st.pending = none) :
    (overList t fuel).drain (st, p :: l) = (overList t fuel).drain (begin st p, l) := by
  refine (drain_congr_ready (by simp [begin, ready]) (by simp [ready, hc, hp]) ?_)
  simp [overList, feed, tryNext_idle hc hp]

/-- What the sample merge over a list hands out from a held sample is what it hands out once that
sample has begun the observation. -/
theorem drain_pending {p : ℕ × κ × ν} {l : List (ℕ × κ × ν)} (hc : st.current = none)
    (hp : st.pending = some p) :
    (overList t fuel).drain (st, l) = (overList t fuel).drain (begin st p, l) := by
  refine (drain_congr_ready (by simp [begin, ready]) (by simp [ready, hp]) ?_)
  simp [overList, feed, tryNext_pending hc hp]

/-- The sample merge over a list hands something out exactly when an observation is begun or
held, or samples remain. -/
theorem drain_head_isSome {l : List (ℕ × κ × ν)} (hlen : l.length < fuel) :
    ((overList t fuel).drain (st, l)).head.isSome = (ready st || !l.isEmpty) := by
  cases hr : ready st
  · have hidle : st.pending = none ∧ st.current = none := by simpa [ready] using hr
    cases l with
    | nil =>
      rw [drain_of_hasNext_false (show (overList t fuel).hasNext (st, []) = (.ok false, (st, [])) by
        simp [hr])]
      rfl
    | cons p l =>
      rw [drain_idle hidle.2 hidle.1]
      obtain ⟨o, q, h⟩ : ∃ o q, (overList t fuel).tryNext (begin st p, l) = (.ok o, q) :=
        overList_tryNext_ready (by simp [begin, ready]) (by simp at hlen; omega)
      rw [drain_of_pull_some (show (overList t fuel).pull (begin st p, l) = (.ok (some o), q) by
        simp [Feed.pull, h])]
      rfl
  · obtain ⟨o, q, h⟩ : ∃ o q, (overList t fuel).tryNext (st, l) = (.ok o, q) :=
      overList_tryNext_ready hr hlen
    rw [drain_of_pull_some (show (overList t fuel).pull (st, l) = (.ok (some o), q) by
      simp [Feed.pull, hr, h])]
    rfl

/-- What a sample merge over tagged samples that fail for a while still hands out: what the
sample merge over the finite list of samples still to come, shorter than the budget, drains from
the same observation. -/
def Observes (t : Tolerance) (fuel : ℕ) (R₀ : σ → Stream'.Seq (ℕ × κ × ν) → ℕ → Prop) :
    SampleMerge κ ν × σ → Stream'.Seq (κ × List (Option ν)) → ℕ → Prop
  | (st, s), ys, k => ∃ l : List (ℕ × κ × ν), R₀ s ↑l k ∧ l.length < fuel ∧
      ys = (overList t fuel).drain (st, l)

variable {R₀ : σ → Stream'.Seq (ℕ × κ × ν) → ℕ → Prop}

/-- Gathering resumes: over samples that fail for a while, within a budget beyond the samples
still to read, it fails where gathering over the list reads on to the same observation, or
gathers as gathering over the list does. -/
theorem gather_resumes (hin : merged.Transient R₀) (t : Tolerance) (key : κ) (st : SampleMerge κ ν)
    {s : σ} {l : List (ℕ × κ × ν)} {k : ℕ} (hl : R₀ s ↑l k) (hlen : l.length < fuel) :
    FailsAlong merged R₀ (fun _ => none) (onSample t key) (fun st => ((), st)) fuel st s l k ∨
      ReadsAlong merged R₀ (fun _ => none) (onSample t key) (fun st => ((), st)) fuel st s l k :=
  hin.readLoop holdsOne_none hl (by rwa [toRead_of_none rfl])

/-- **Completing a begun observation.** Gathering over samples that fail for a while fails,
keeping what it gathered, or completes the observation the merge over the list completes. -/
theorem tryNext_begun (hin : merged.Transient R₀) {key : κ} {l : List (ℕ × κ × ν)} {k : ℕ}
    (hkey : st.current = some key) (hl : R₀ s ↑l k) (hlen : l.length < fuel) :
    (∃ e st' s' k', e ≠ .exhausted ∧ k' < k ∧
        tryNext t merged fuel st s = (.error (.fail e), st', s') ∧
        Observes t fuel R₀ (st', s') ((overList t fuel).drain (st, l)) k') ∨
      ∃ st' s', tryNext t merged fuel st s = (Feed.answer ((overList t fuel).drain (st, l)), st', s') ∧
        Observes t fuel R₀ (st', s') ((overList t fuel).drain (st, l)).tail k := by
  rcases gather_resumes hin t key st hl hlen with
    ⟨e, st', s', l', k', he, hk, hloop, hs', -, hl', hsame⟩ |
    ⟨b, st', s', l', hloop₀, hloop, hs', hl', -⟩
  · -- a failed read: the samples gathered so far stay with the begun observation
    have hgather : gather t merged key fuel st s = (.error (.fail e), st', s') := by
      rw [gather_eq_readLoop, hloop]
    have hkey' : st'.current = some key := by
      simpa [hgather] using gather_current merged key fuel s hkey (t := t)
    -- the merge over the list completes the observation alike from there
    have hgather₀ : gather t ofList key fuel st' l' = gather t ofList key fuel st l := by
      rw [gather_eq_readLoop, gather_eq_readLoop, hsame fuel (by rw [toRead_of_none rfl]; omega)]
    refine .inl ⟨e, st', s', k', he, hk, tryNext_current_error hkey hgather, l', hs', by omega,
      drain_congr_ready (by simp [ready, hkey']) (by simp [ready, hkey]) ?_⟩
    simp only [overList, feed, tryNext, hkey, hkey', hgather₀]
  · have hgather : gather t merged key fuel st s = (.ok (), st', s') := by
      rw [gather_eq_readLoop, hloop]
    have hgather₀ : gather t ofList key fuel st l = (.ok (), st', l') := by
      rw [gather_eq_readLoop, hloop₀]
    have hdrain : (overList t fuel).drain (st, l) =
        .cons (key, st'.latest.toList) ((overList t fuel).drain ({ st' with current := none }, l')) :=
      drain_of_pull_some (by simp [Feed.pull, ready, hkey, overList_tryNext,
        tryNext_current_ok hkey hgather₀])
    exact .inr ⟨{ st' with current := none }, s', by rw [tryNext_current_ok hkey hgather, hdrain]; rfl,
      l', hs', by omega, by rw [hdrain, Stream'.Seq.tail_cons]⟩

end SampleMerge

/-- **The sample merge resumes** where the sample merge over the list of tagged samples still to
come is, over samples that fail for a while and hold a finite list shorter than its budget. -/
theorem Feed.Transient.sampleMerge {ν : Type} [WeakEq κ] {merged : Feed σ (ℕ × κ × ν)}
    {R₀ : σ → Stream'.Seq (ℕ × κ × ν) → ℕ → Prop} (hin : merged.Transient R₀) (t : Tolerance)
    (fuel : ℕ) : (SampleMerge.feed t merged fuel).Transient (SampleMerge.Observes t fuel R₀) where
  hasNext := by
    rintro ⟨st, s⟩ ys k ⟨l, hl, hlen, rfl⟩
    cases hr : SampleMerge.ready st
    · -- nothing begun or held: the merged samples answer
      obtain ⟨b, s₁, hh, hh', hl₁, hb⟩ := hin.hasNext hl
      refine ⟨b, (st, s₁), by simp [SampleMerge.feed, SampleMerge.hasNext_idle hr, hh],
        by simp [SampleMerge.feed, SampleMerge.hasNext_idle hr, hh'], ⟨l, hl₁, hlen, rfl⟩, ?_⟩
      rcases hb with rfl | ⟨rfl, e, s₂, he, ht⟩
      · left
        rw [SampleMerge.drain_head_isSome hlen, hr, seq_head_ofList]
        cases l <;> rfl
      · -- the next read fails, and so does the merge's next call
        have hidle : st.pending = none ∧ st.current = none := by simpa [SampleMerge.ready] using hr
        refine .inr ⟨rfl, e, (st, s₂), he, ?_⟩
        simp [SampleMerge.feed, SampleMerge.tryNext_idle hidle.2 hidle.1, pull_of_fails hh' he ht]
    · refine ⟨true, (st, s), by simp [SampleMerge.feed, SampleMerge.hasNext_ready hr],
        by simp [SampleMerge.feed, SampleMerge.hasNext_ready hr], ⟨l, hl, hlen, rfl⟩, .inl ?_⟩
      rw [SampleMerge.drain_head_isSome hlen, hr]
      rfl
  tryNext := by
    rintro ⟨st, s⟩ ys k ⟨l, hl, hlen, rfl⟩
    -- each case reaches a begun observation and completes it
    have hdone : ∀ {st₀ st₁ : SampleMerge κ ν} {s₀ s₁ : σ} {l₁ : List (ℕ × κ × ν)} {key : κ},
        SampleMerge.tryNext t merged fuel st₀ s₀ = SampleMerge.tryNext t merged fuel st₁ s₁ →
        (SampleMerge.overList t fuel).drain (st, l) = (SampleMerge.overList t fuel).drain (st₁, l₁) →
        st₁.current = some key → R₀ s₁ ↑l₁ k → l₁.length < fuel →
        Fails (SampleMerge.feed t merged fuel).tryNext (SampleMerge.Observes t fuel R₀) (st₀, s₀)
            ((SampleMerge.overList t fuel).drain (st, l)) k ∨
          ∃ p', (SampleMerge.feed t merged fuel).tryNext (st₀, s₀) =
              (Feed.answer ((SampleMerge.overList t fuel).drain (st, l)), p') ∧
            SampleMerge.Observes t fuel R₀ p' ((SampleMerge.overList t fuel).drain (st, l)).tail k := by
      intro st₀ st₁ s₀ s₁ l₁ key htry hys hkey hl₁ hlen₁
      rw [hys]
      rcases SampleMerge.tryNext_begun hin hkey hl₁ hlen₁ with
        ⟨e, st', s', k', he, hk, ht, hobs⟩ | ⟨st', s', ht, hobs⟩
      · exact .inl ⟨e, (st', s'), k', he, hk, by simp [SampleMerge.feed, htry, ht], hobs⟩
      · exact .inr ⟨(st', s'), by simp [SampleMerge.feed, htry, ht], hobs⟩
    cases hc : st.current with
    | some key => exact hdone rfl rfl hc hl hlen
    | none =>
      cases hp : st.pending with
      | some p =>
        exact hdone (SampleMerge.tryNext_pending hc hp) (SampleMerge.drain_pending hc hp) rfl hl hlen
      | none =>
        rcases hin.pull hl with ⟨e, s', k', he, hk, hpull, hl'⟩ | ⟨s', hpull, hl'⟩
        · exact .inl ⟨e, (st, s'), k', he, hk,
            by simp [SampleMerge.feed, SampleMerge.tryNext_idle hc hp, hpull], ⟨l, hl', hlen, rfl⟩⟩
        · cases l with
          | nil =>
            -- the end of the samples, and of the merge
            have hnil : (SampleMerge.overList t fuel).drain (st, []) = .nil :=
              drain_of_hasNext_false (show (SampleMerge.overList t fuel).hasNext (st, []) =
                (.ok false, (st, [])) by simp [SampleMerge.ready, hc, hp])
            rw [seq_head_ofList, List.head?_nil] at hpull
            rw [hnil]
            exact .inr ⟨(st, s'), by simp [SampleMerge.feed, SampleMerge.tryNext_idle hc hp, hpull],
              ⟨[], by simpa using hl', by omega, by rw [hnil]; rfl⟩⟩
          | cons p l =>
            rw [seq_head_ofList, List.head?_cons] at hpull
            rw [seq_tail_ofList, List.tail_cons] at hl'
            exact hdone (by rw [SampleMerge.tryNext_idle hc hp, hpull])
              (SampleMerge.drain_idle hc hp) rfl hl' (by simp at hlen; omega)

end LazySeq
