import Mathlib
import LazySeq.Proofs.Stream.TransientAdapters
import LazySeq.Proofs.Stream.TransientRuns
import LazySeq.Proofs.Stream.TransientMerge
import LazySeq.Proofs.PowerSeries.Resume
import LazySeq.Proofs.Series.Resume
import LazySeq.Proofs.Series.ResumeBuckets

/-!
# Sequences built by the adapters lose nothing to a failure

`Feed.Built f R` says that `f` is built by the adapters from inputs that fail for a while (a
bounded fork refusing a read while a sibling queue is full is one), and that `R` says what it
hands out: one constructor per adapter, each with the conditions under which the adapter resumes
where it stopped.

* Element adapters: `map`, `tap` (a peek), `limit`, `filter`, `concat`, `map2`.
* Run adapters: `groupBy`, `keepFirst`, and `keepLast` when its tolerance is anchor free or its
  input never fails.
* Adapters over several inputs side by side: `zip`, whose inputs answer whether their sequences
  go on, and `merge` by a selector that keeps no state.
* A fork of an unbounded hub read alone (`Queues.transient_fork`).
* Series adapters over keyed samples: `linearize` and the sample merge.
* Power series operations: `integral`, `derivative`, `reciprocal`, `product`, and `sum` and
  `composition`, whose right (resp. outer) input answers whether its sequence goes on.

A bucketing of the samples and bucket keys of two built sequences resumes too, but past its last
sample its look ahead reads one more bucket key each time it is asked: it satisfies
`Feed.Resumes` and not `Feed.Transient`, so `Feed.Served` adds it on top of the built sequences.

**Main statements.**

* `Feed.Built.transient`: every built sequence behaves as the sequence `R` names, whatever its
  inputs' failures.
* `retries_lose_nothing`: a consumer that calls `tryNext` again after every failure collects
  what the same consumer collects from the run without the failures.
* `lookahead_moves_nothing`: with no failure to come, `hasNext` calls inserted anywhere change no
  answer of the `tryNext` calls.

The conditions are needed. A pairwise map drops the left element read in a call whose right read
failed (`Map2.retrying_flaky_loses_second_left`). A keep-last with a tolerance that is not anchor
free regroups a run resumed after a failure. A merge by a selector with a turn counter asks it
again on the retried call. A zip, a sum or a composition over an input that answers `true` for a
failure it keeps ahead may hand out a row or a coefficient where the run without the failure ends.
-/

namespace LazySeq

namespace Feed

variable {α β γ : Type}

/-! ## The list input with scheduled failures -/

theorem count_nextMark (ms : List Bool) :
    (nextMark ms).2.count true + (if (nextMark ms).1 then 1 else 0) = ms.count true := by
  cases ms with
  | nil => rfl
  | cons m ms => cases m <;> simp

/-- The list input fails for a while: its marked reads are the failures to come. -/
theorem transient_flaky {e : SeqError} (he : e ≠ .exhausted) :
    (flaky e : Feed (List α × List Bool) α).Transient
      fun p xs k => xs = ↑p.1 ∧ p.2.count true ≤ k where
  hasNext := by
    rintro ⟨l, ms⟩ _ k ⟨rfl, hk⟩
    refine ⟨!l.isEmpty, (l, ms), rfl, rfl, ⟨rfl, hk⟩, .inl ?_⟩
    cases l <;> simp
  tryNext := by
    rintro ⟨l, ms⟩ _ k ⟨rfl, hk⟩
    dsimp only at hk
    have hcount := count_nextMark ms
    cases l with
    | nil => exact .inr ⟨([], ms), by simp [flaky], by simp, hk⟩
    | cons x rest =>
      cases hm : (nextMark ms).1 with
      | true =>
        -- a marked read fails and moves nothing
        rw [hm] at hcount
        exact .inl ⟨e, (x :: rest, (nextMark ms).2), _, he, by simp at hcount ⊢; omega,
          by simp [flaky, hm], rfl, le_rfl⟩
      | false =>
        rw [hm] at hcount
        exact .inr ⟨(rest, (nextMark ms).2), by simp [flaky, hm, answer_cons], by simp,
          by simp at hcount ⊢; omega⟩

/-- The list input answers whether its list goes on. -/
theorem truthful_flaky (e : SeqError) :
    (flaky e : Feed (List α × List Bool) α).Truthful fun p xs k => xs = ↑p.1 ∧ p.2.count true ≤ k := by
  rintro ⟨l, ms⟩ _ k ⟨rfl, -⟩
  cases l <;> simp [flaky]

end Feed

/-! ## A fork read alone -/

namespace Queues

open Feed

variable {σ : Type} {up : Feed σ α} {R : σ → Stream'.Seq α → ℕ → Prop}

/-- Fork `i` of an unbounded hub, read alone: it hands out its queue, then what the upstream
hands out, with the upstream's failures to come. -/
def ForkOf (R : σ → Stream'.Seq α → ℕ → Prop) (i : ℕ) (p : Queues α × σ) (xs : Stream'.Seq α)
    (k : ℕ) : Prop :=
  p.1.capacity = none ∧ ∃ queue rest, p.1.queue? i = some queue ∧ R p.2 rest k ∧
    xs = (↑queue.toList : Stream'.Seq α).append rest

/-- **A fork of an unbounded hub, read alone, resumes where it stopped**: its queue goes first,
and then it reads the upstream and passes the upstream's failures on. -/
theorem transient_fork (h : up.Transient R) (i : ℕ) :
    (Queues.fork up i).Transient (ForkOf R i) where
  hasNext := by
    rintro ⟨q, s⟩ _ k ⟨hc, queue, rest, hq, hs, rfl⟩
    cases hqs : queue.toList with
    | nil =>
      -- an empty queue: the fork answers as the upstream
      have hsize : ¬queue.size > 0 := by simp [Queue.size_eq_length, hqs]
      obtain ⟨b, s', hh, hh', hs', hb⟩ := h.hasNext hs
      refine ⟨b, (q, s'), by simp [hasNext_of_queue? hq, hsize, hh],
        by simp [hasNext_of_queue? hq, hsize, hh'], ⟨hc, queue, rest, hq, hs', by simp [hqs]⟩, ?_⟩
      rcases hb with hb | ⟨rfl, e, s'', he, ht⟩
      · exact .inl (by simpa using hb)
      · refine .inr ⟨rfl, e, (q, s''), he, ?_⟩
        simp [tryNext_of_not_blocked hq hqs hh' (blocked_of_unbounded hc i), ht]
    | cons a t =>
      have hsize : queue.size > 0 := by simp [Queue.size_eq_length, hqs]
      exact ⟨true, (q, s), by simp [hasNext_of_queue? hq, hsize],
        by simp [hasNext_of_queue? hq, hsize], ⟨hc, queue, rest, hq, hs, by rw [hqs]⟩, .inl (by simp)⟩
  tryNext := by
    rintro ⟨q, s⟩ _ k ⟨hc, queue, rest, hq, hs, rfl⟩
    cases hp : queue.pop? with
    | some p =>
      -- the queue's head goes first
      obtain ⟨a, rest'⟩ := p
      refine .inr ⟨({ q with queues := q.queues.set! i (some rest') }, s), ?_, hc, rest', rest, ?_,
        hs, ?_⟩
      · simp [tryNext_of_pop? hq hp, Queue.toList_of_pop? hp]
      · rw [queue?_set hq, if_pos rfl]
      · simp [Queue.toList_of_pop? hp]
    | none =>
      -- an empty queue: the fork reads the upstream and offers the element to its siblings
      have he := (Queue.pop?_eq_none_iff queue).1 hp
      obtain ⟨b, s₁, hh, -, hs₁, hb⟩ := h.hasNext hs
      simp only [he, Stream'.Seq.ofList_nil, Stream'.Seq.nil_append]
      cases b with
      | false =>
        -- the upstream has ended: so has the fork
        have hnil : rest = .nil := by
          rcases hb with hb | ⟨hb, -⟩
          · exact Stream'.Seq.head_eq_none_iff.1 (Option.not_isSome_iff_eq_none.1 (by simp [← hb]))
          · cases hb
        subst hnil
        exact .inr ⟨(q, s₁), by simp [tryNext_of_hasNext_false hq he hh], hc, queue, .nil, hq,
          by simpa using hs₁, by simp [he]⟩
      | true =>
        have hrun := tryNext_of_not_blocked hq he hh (blocked_of_unbounded hc i)
        rcases h.tryNext hs₁ with ⟨e, s₂, k', he', hk, ht, hs₂⟩ | ⟨s₂, ht, hs₂⟩
        · exact .inl ⟨e, (q, s₂), k', he', hk, by simp [hrun, ht],
            hc, queue, rest, hq, hs₂, by simp [he]⟩
        · cases hx : rest.head with
          | none =>
            have hans : Feed.answer rest = Outcome.exhausted := by simp [Feed.answer, hx]
            exact .inr ⟨(q, s₂), by simp [hrun, ht, hans, Outcome.exhausted], hc, queue,
              rest.tail, hq, hs₂, by simp [he]⟩
          | some a =>
            have hans : Feed.answer rest = .ok a := by simp [Feed.answer, hx]
            exact .inr ⟨(q.broadcast i a, s₂), by simp [hrun, ht, hans],
              by rw [capacity_broadcast, hc], queue, rest.tail, by simp [hq], hs₂, by simp [he]⟩

end Queues

namespace Feed

/-! ## The adapters -/

/-- The sequences the adapters build over inputs that fail for a while, each with the relation
that says what it hands out from a state and how many of its calls may fail on the way. -/
inductive Built : {σ α : Type} → Feed σ α → (σ → Stream'.Seq α → ℕ → Prop) → Prop
  | input {σ α : Type} {f : Feed σ α} {R : σ → Stream'.Seq α → ℕ → Prop} :
      f.Transient R → Built f R
  | map {σ α β : Type} {f : Feed σ α} {R : σ → Stream'.Seq α → ℕ → Prop} (g : α → β) :
      Built f R → Built (f.map g) (Mapped g R)
  | tap {σ α : Type} {f : Feed σ α} {R : σ → Stream'.Seq α → ℕ → Prop} (note : σ → α → σ)
      (hnote : ∀ s xs k a, R s xs k → R (note s a) xs k) : Built f R → Built (f.tap note) R
  | limit {σ α : Type} {f : Feed σ α} {R : σ → Stream'.Seq α → ℕ → Prop} :
      Built f R → Built (Limit.feed f) (Limit.Within R)
  | filter {σ α : Type} {f : Feed σ α} {R : σ → Stream'.Seq α → ℕ → Prop} (p : α → Bool)
      (fuel : ℕ) : Built f R → Built (Filter.feed p fuel f) (Filter.Passes p fuel R)
  | concat {τ ω α : Type} {part : Feed (τ × ω) α} {release : ω → τ → ω}
      {P : List τ × ω → List (Stream'.Seq α) → ℕ → Prop} :
      Concat.Parts part release P → Built (Concat.feed part release) (Concat.Joined P)
  | map2 {σ₁ σ₂ α β γ : Type} {fL : Feed σ₁ α} {fR : Feed σ₂ β}
      {RL : σ₁ → Stream'.Seq α → ℕ → Prop} {RR : σ₂ → Stream'.Seq β → ℕ → Prop} (g : α → β → γ) :
      Built fL RL → Built fR RR → Built (Map2.onSides g fL fR) (Map2.Zipped g RL RR)
  | groupBy {σ α : Type} {f : Feed σ α} {R : σ → Stream'.Seq α → ℕ → Prop} (same : α → α → Bool)
      (fuel : ℕ) : Built f R → Built (GroupBy.feed same fuel f) (GroupBy.Grouped same fuel R)
  | keepFirst {σ α : Type} {f : Feed σ α} {R : σ → Stream'.Seq α → ℕ → Prop}
      (same : α → α → Bool) (fuel : ℕ) :
      Built f R → Built (KeepFirst.feed same fuel f) (KeepFirst.Kept same fuel R)
  | keepLast {σ α : Type} {f : Feed σ α} {R : σ → Stream'.Seq α → ℕ → Prop} {same : α → α → Bool}
      (hok : AnchorFree same ∨ Clean R) (fuel : ℕ) :
      Built f R → Built (KeepLast.feed same fuel f) (KeepLast.Held same fuel R)
  | zip {α : Type} {σs : ℕ → Type} {n : ℕ} {fs : (i : ℕ) → Feed (σs i) α}
      {Rs : (i : ℕ) → σs i → Stream'.Seq α → ℕ → Prop} (weak : Bool) :
      (∀ i < n, Built (fs i) (Rs i)) → (∀ i < n, (fs i).Truthful (Rs i)) →
      Built (Zip.feed weak (sideBySide fs n)) (Zip.Zipped weak n Rs)
  | merge {α : Type} {σs : ℕ → Type} {n : ℕ} {fs : (i : ℕ) → Feed (σs i) α}
      {Rs : (i : ℕ) → σs i → Stream'.Seq α → ℕ → Prop} {pick : List (Option α) → Option ℕ}
      (hpick : Merge.Picks pick) (weak : Bool) :
      (∀ i < n, Built (fs i) (Rs i)) →
      Built (Merge.feed (Merge.stateless pick) weak (sideBySide fs n)) (Merge.Merged pick weak n Rs)
  | fork {σ α : Type} {up : Feed σ α} {R : σ → Stream'.Seq α → ℕ → Prop} (i : ℕ) :
      Built up R → Built (Queues.fork up i) (Queues.ForkOf R i)
  | linearize {σ κ V : Type} [FitArith V] [Axis κ V] {samples : Feed σ (κ × V)}
      {R : σ → Stream'.Seq (κ × V) → ℕ → Prop} (epsilon : V) (fuel : ℕ) :
      Built samples R → Built (Linearize.feed epsilon fuel samples) (Linearize.Segments epsilon fuel R)
  | sampleMerge {σ κ ν : Type} [WeakEq κ] {merged : Feed σ (ℕ × κ × ν)}
      {R : σ → Stream'.Seq (ℕ × κ × ν) → ℕ → Prop} (t : Tolerance) (fuel : ℕ) :
      Built merged R → Built (SampleMerge.feed t merged fuel) (SampleMerge.Observes t fuel R)
  | integral {σ α : Type} [Coefficient α] {f : Feed σ α} {R : σ → Stream'.Seq α → ℕ → Prop} :
      Built f R →
      Built (Integral.feed f) (Drains (Integral.feed ofSeq) (Integral.Tracks R) fun _ => True)
  | derivative {σ α : Type} [Coefficient α] {f : Feed σ α} {R : σ → Stream'.Seq α → ℕ → Prop} :
      Built f R →
      Built (Derivative.feed f) (Drains (Derivative.feed ofSeq) (Derivative.Tracks f R) fun _ => True)
  | reciprocal {σ α : Type} [Coefficient α] {f : Feed σ α} {R : σ → Stream'.Seq α → ℕ → Prop} :
      Built f R →
      Built (Reciprocal.feed f) (Drains (Reciprocal.feed ofSeq) (Reciprocal.Tracks R) fun _ => True)
  | sum {σ₁ σ₂ α : Type} [Coefficient α] {f₁ : Feed σ₁ α} {f₂ : Feed σ₂ α}
      {R₁ : σ₁ → Stream'.Seq α → ℕ → Prop} {R₂ : σ₂ → Stream'.Seq α → ℕ → Prop} :
      Built f₁ R₁ → Built f₂ R₂ → f₂.Truthful R₂ →
      Built (SeriesSum.feed f₁.onLeft f₂.onRight)
        (Drains (SeriesSum.feed ofSeq.onLeft ofSeq.onRight) (SeriesSum.Tracks R₁ R₂)
          fun p => p.1.held = none)
  | product {σ₁ σ₂ α : Type} [Coefficient α] {f₁ : Feed σ₁ α} {f₂ : Feed σ₂ α}
      {R₁ : σ₁ → Stream'.Seq α → ℕ → Prop} {R₂ : σ₂ → Stream'.Seq α → ℕ → Prop} :
      Built f₁ R₁ → Built f₂ R₂ →
      Built (Product.feed f₁.onLeft f₂.onRight)
        (Drains (Product.feed ofSeq.onLeft ofSeq.onRight) (Product.Tracks R₁ R₂) fun _ => True)
  | composition {σ₁ σ₂ α : Type} [Coefficient α] {f₁ : Feed σ₁ α} {f₂ : Feed σ₂ α}
      {R₁ : σ₁ → Stream'.Seq α → ℕ → Prop} {R₂ : σ₂ → Stream'.Seq α → ℕ → Prop} :
      Built f₁ R₁ → f₁.Truthful R₁ → Built f₂ R₂ →
      Built (Composition.feed f₁.onLeft f₂.onRight)
        (Drains (Composition.feed ofSeq.onLeft ofSeq.onRight) (Composition.Tracks R₁ R₂)
          fun _ => True)

variable {σ : Type} {f : Feed σ α} {R : σ → Stream'.Seq α → ℕ → Prop}

/-- **Every built sequence hands out what its relation says**, whatever the failures of its
inputs: each adapter resumes where it stopped. -/
theorem Built.transient (h : Built f R) : f.Transient R := by
  induction h with
  | input h => exact h
  | map g _ ih => exact ih.map g
  | tap note hnote _ ih => exact ih.tap note hnote
  | limit _ ih => exact ih.limit
  | filter p fuel _ ih => exact ih.filter p fuel
  | concat hp => exact Transient.concat hp
  | map2 g _ _ ihL ihR => exact ihL.map2 ihR g
  | groupBy same fuel _ ih => exact ih.groupBy same fuel
  | keepFirst same fuel _ ih => exact ih.keepFirst same fuel
  | keepLast hok fuel _ ih => exact ih.keepLast hok fuel
  | zip weak _ htr ih => exact Transient.zip ih htr weak
  | merge hpick weak _ ih => exact Transient.merge ih hpick weak
  | fork i _ ih => exact Queues.transient_fork ih i
  | linearize epsilon fuel _ ih => exact ih.linearize epsilon fuel
  | sampleMerge t fuel _ ih => exact ih.sampleMerge t fuel
  | integral _ ih => exact ih.integral
  | derivative _ ih => exact ih.derivative
  | reciprocal _ ih => exact ih.reciprocal
  | sum _ _ hT ih₁ ih₂ => exact ih₁.seriesSum ih₂ hT
  | product _ _ ih₁ ih₂ => exact ih₁.product ih₂
  | composition _ hT _ ih₁ ih₂ => exact ih₁.composition hT ih₂

/-- The sequences a consumer reads: a built sequence, or a bucketing of the samples and bucket
keys of two built sequences. A bucketing resumes where it stopped, but past its last sample a
look ahead reads one more bucket key each time, so it is read here as it is and not fed to
another adapter. -/
inductive Served : {σ α : Type} → Feed σ α → (σ → Stream'.Seq α → ℕ → Prop) → Prop
  | built {σ α : Type} {f : Feed σ α} {R : σ → Stream'.Seq α → ℕ → Prop} : Built f R → Served f R
  | compact {σ₁ σ₂ κ ν ω : Type} [PartialCompare κ] {f₁ : Feed σ₁ (κ × ν)} {f₂ : Feed σ₂ κ}
      {R₁ : σ₁ → Stream'.Seq (κ × ν) → ℕ → Prop} {R₂ : σ₂ → Stream'.Seq κ → ℕ → Prop}
      (aggregate : List ν → ω) (fuel : ℕ) :
      Built f₁ R₁ → Built f₂ R₂ →
      Served (Compact.feed aggregate f₁.onLeft f₂.onRight fuel) (Compact.Bucketed aggregate fuel R₁ R₂)

/-- Every sequence a consumer reads resumes where it stopped. -/
theorem Served.resumes (h : Served f R) : f.Resumes R := by
  cases h with
  | built h => exact h.transient.resumes
  | compact aggregate fuel h₁ h₂ => exact h₁.transient.compact h₂.transient aggregate fuel

end Feed

open Feed

variable {σ α : Type} {f : Feed σ α} {R : σ → Stream'.Seq α → ℕ → Prop} {s : σ}
  {ys : Stream'.Seq α} {k : ℕ}

/-- **Retried failures lose nothing.** Over inputs that fail for a while, a consumer that calls
`tryNext` `c` times on a sequence it reads, and calls again after every failure, collects the
first `c - m` elements of what the sequence hands out without the failures, where `m ≤ k` is the
number of calls that failed. -/
theorem retries_lose_nothing (h : Served f R) (hs : R s ys k) (c : ℕ) :
    ∃ m, m ≤ k ∧ m ≤ c ∧ f.retrying c s = ys.take (c - m) :=
  h.resumes.retrying c hs

/-- Readings keyed `1, 2, 4` bucketed by the keys `0, 3`, the key input refusing its second
read once: six calls, each retried after a failure, hand out the buckets of the run without the
failure. -/
theorem retries_lose_nothing_bucketing :
    ∃ m, m ≤ 1 ∧ m ≤ 6 ∧
      (Compact.feed List.length (flaky (.bufferOverflow 1)).onLeft
          (flaky (.bufferOverflow 1)).onRight 10).retrying 6
        (Compact.initial, (([((1 : Int64), (5 : ℕ)), (2, 7), (4, 1)], []),
          ([(0 : Int64), 3], [false, true]))) =
      ((Compact.overLists List.length 10).drain
        (Compact.initial, ([((1 : Int64), (5 : ℕ)), (2, 7), (4, 1)], [(0 : Int64), 3]))).take (6 - m) := by
  refine retries_lose_nothing
    (Served.compact List.length 10 (.input (transient_flaky (by decide)))
      (.input (transient_flaky (by decide)))) ?_ 6
  exact ⟨[(1, 5), (2, 7), (4, 1)], [0, 3],
    ⟨rfl, by decide, nofun, 0, 1, le_rfl, ⟨rfl, by decide⟩, ⟨rfl, by decide⟩⟩, rfl⟩

/-- **Looking ahead moves nothing** in a sequence a consumer reads, with no failure to come:
`hasNext` calls inserted anywhere change no answer of its `tryNext` calls, and a `hasNext` that
answers `false` is followed by an exhausted `tryNext`. -/
theorem lookahead_moves_nothing (h : Served f R) (hs : R s ys 0) : f.LookaheadInvisible s :=
  h.resumes.lookaheadInvisible hs

/-- The bucketing of readings keyed `1, 2, 4` by the keys `0, 3`, none of whose reads fail: looks
ahead anywhere change no answer of its calls. -/
theorem lookahead_moves_nothing_bucketing :
    (Compact.feed List.length (flaky (.bufferOverflow 1)).onLeft
        (flaky (.bufferOverflow 1)).onRight 10).LookaheadInvisible
      (Compact.initial, (([((1 : Int64), (5 : ℕ)), (2, 7), (4, 1)], []), ([(0 : Int64), 3], []))) := by
  apply lookahead_moves_nothing
    (Served.compact List.length 10 (.input (transient_flaky (by decide)))
      (.input (transient_flaky (by decide))))
  exact ⟨[(1, 5), (2, 7), (4, 1)], [0, 3],
    ⟨rfl, by decide, nofun, 0, 0, le_rfl, ⟨rfl, by decide⟩, ⟨rfl, by decide⟩⟩, rfl⟩

end LazySeq
