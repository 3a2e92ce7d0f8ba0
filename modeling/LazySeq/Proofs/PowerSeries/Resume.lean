import Mathlib
import LazySeq.Proofs.Stream.Resume
import LazySeq.PowerSeries.Ops

/-!
# Series operations resume after a failure

Each series operation over inputs that fail for a while hands out what the same operation hands
out over inputs that hold the same coefficients and never fail (`Feed.ofSeq`): it follows that
run (`Feed.Follows`), a failure leaving it where the run without failures still is. What the
operation holds between calls is related to what the failure-free one holds by a relation per
operation (`Integral.Tracks`, `Product.Tracks`, …).

* The integral and the reciprocal read at most one coefficient per call and keep nothing read
  when the read fails.
* The derivative skips the constant term on its first call; over an input whose constant term
  reads without failure it resumes like the integral. A failure met while skipping it in
  `hasNext` is answered `true` and not kept: asked again, the derivative may find its end.
* A sum holds the left coefficient it read when the right read fails. It resumes where the run
  without failures is when the right input's `hasNext` answers whether its sequence goes on
  (`Feed.Truthful`): a right input that answers `true` for a failure it keeps ahead and then turns
  out to have ended makes the sum hand out the left coefficient, zero, where the run without
  failures had ended.
* A product keeps the left coefficient it read when the right read fails, and resumes over any
  inputs holding series that are not empty.
* A composition keeps the inner coefficient it read when the outer read fails. It resumes when
  the outer input's `hasNext` answers whether its sequence goes on: otherwise it may stop at the
  degree of what it read, one coefficient early.
-/

namespace LazySeq

open Feed

variable {σ σ₁ σ₂ α : Type}

/-! ## One read -/

section Read

variable {f : Feed σ α} {R : σ → Stream'.Seq α → ℕ → Prop} {s : σ} {xs : Stream'.Seq α} {k : ℕ}

/-- Reading coefficient `n` into the known ones fails, or reads what the failure-free input
reads. -/
theorem Product.readAt_follows (h : f.Transient R) (hs : R s xs k) (n : ℕ) (known : Array α) :
    Fails (Product.readAt f n known) R s xs k ∨
      ∃ s', Product.readAt f n known s = ((Product.readAt ofSeq n known xs).1, s') ∧
        R s' (Product.readAt ofSeq n known xs).2 k := by
  by_cases hn : known.size ≤ n
  · rcases h.pull hs with ⟨e, s', k', he, hk, hp, hs'⟩ | ⟨s', hp, hs'⟩
    · exact .inl ⟨e, s', k', he, hk, by simp [Product.readAt, hn, hp], hs'⟩
    · refine .inr ⟨s', ?_, ?_⟩
      · cases hx : xs.head <;> simp [Product.readAt, hn, hp, hx]
      · cases hx : xs.head <;> simpa [Product.readAt, hn, hx] using hs'
  · exact .inr ⟨s, by simp [Product.readAt, hn], by simpa [Product.readAt, hn] using hs⟩

end Read

variable [Coefficient α]

/-! ## Integral -/

namespace Integral

variable {f : Feed σ α} {R : σ → Stream'.Seq α → ℕ → Prop}

/-- The integral over a failing input and over the failure-free one: at the same index, the
inputs holding the same coefficients. -/
def Tracks (R : σ → Stream'.Seq α → ℕ → Prop) (p : ℕ × σ) (p₀ : ℕ × Stream'.Seq α) (k : ℕ) :
    Prop :=
  p.1 = p₀.1 ∧ R p.2 p₀.2 k

/-- Over the failure-free input the integral never fails. -/
theorem steady : (Integral.feed (ofSeq (α := α))).Steady fun _ => True := by
  refine .of_still (fun {p} _ => ?_) (fun {p} _ hh => ?_) (fun {p} _ hh => ?_)
  · obtain ⟨n, xs⟩ := p
    by_cases hn : n = 0 <;> simp [Integral.feed, Integral.hasNext, hn]
  · obtain ⟨n, xs⟩ := p
    by_cases hn : n = 0
    · simp [Integral.feed, Integral.tryNext, hn]
    · have hx : xs.head.isSome := by simpa [Integral.feed, Integral.hasNext, hn] using hh
      obtain ⟨a, ha⟩ := Option.isSome_iff_exists.1 hx
      simp [Integral.feed, Integral.tryNext, hn, Feed.answer, ha]
  · obtain ⟨n, xs⟩ := p
    by_cases hn : n = 0
    · simp [Integral.feed, Integral.hasNext, hn] at hh
    · have hx : xs = .nil := by
        simpa [Integral.feed, Integral.hasNext, hn, Stream'.Seq.head_eq_none_iff] using hh
      subst hx
      simp [Integral.feed, Integral.tryNext, hn, Feed.answer, Outcome.exhausted]

/-- The integral over a failing input follows the integral over the failure-free one. -/
theorem follows (h : f.Transient R) : (Integral.feed f).Follows (Integral.feed ofSeq) (Tracks R) where
  hasNext := by
    rintro ⟨n, s⟩ ⟨_, xs⟩ k ⟨rfl, hs⟩
    by_cases hn : n = 0
    · -- the constant term is always there
      exact ⟨true, (n, s), by simp [Integral.feed, Integral.hasNext, hn],
        by simp [Integral.feed, Integral.hasNext, hn],
        .inl ⟨(n, xs), by simp [Integral.feed, Integral.hasNext, hn], rfl, hs⟩⟩
    · obtain ⟨b, s', hh, hh', hs', hb | ⟨rfl, e, s'', he, ht⟩⟩ := h.hasNext hs
      · exact ⟨b, (n, s'), by simp [Integral.feed, Integral.hasNext, hn, hh],
          by simp [Integral.feed, Integral.hasNext, hn, hh'],
          .inl ⟨(n, xs), by simp [Integral.feed, Integral.hasNext, hn, hb], rfl, hs'⟩⟩
      · refine ⟨true, (n, s'), by simp [Integral.feed, Integral.hasNext, hn, hh],
          by simp [Integral.feed, Integral.hasNext, hn, hh'], .inr ⟨rfl, ?_, rfl, hs'⟩⟩
        exact ⟨e, (n, s''), he, by simp [Integral.feed, Integral.tryNext, hn, ht]⟩
  tryNext := by
    rintro ⟨n, s⟩ ⟨_, xs⟩ k ⟨rfl, hs⟩
    by_cases hn : n = 0
    · refine .inr ⟨(1, s), by simp [Integral.feed, Integral.tryNext, hn], ?_⟩
      exact ⟨by simp [Integral.feed, Integral.tryNext, hn], by
        simpa [Integral.feed, Integral.tryNext, hn] using hs⟩
    · rcases h.tryNext hs with ⟨e, s', k', he, hk, ht, hs'⟩ | ⟨s', ht, hs'⟩
      · exact .inl ⟨e, (n, s'), k', he, hk, by simp [Integral.feed, Integral.tryNext, hn, ht],
          rfl, hs'⟩
      · -- the same answer as the failure-free input, divided by the index
        refine .inr ⟨((match Feed.answer xs with | .ok _ => n + 1 | .error _ => n), s'), ?_, ?_⟩
        · cases hx : Feed.answer xs <;> simp [Integral.feed, Integral.tryNext, hn, ht, hx]
        · cases hx : Feed.answer xs <;> simpa [Integral.feed, Integral.tryNext, hn, hx, Tracks] using hs'

end Integral

/-! ## Derivative -/

namespace Derivative

variable {f : Feed σ α} {R : σ → Stream'.Seq α → ℕ → Prop} {s s' : σ} {ys : Stream'.Seq α}
  {k : ℕ}

omit [Coefficient α] in
@[simp] theorem skipConstant_of_index_pos (f : Feed σ α) (n : ℕ) (s : σ) :
    skipConstant f (n + 1) s = (.ok (), n + 1, s) :=
  rfl

@[simp] theorem hasNext_succ (f : Feed σ α) (n : ℕ) (s : σ) :
    (Derivative.feed f).hasNext (n + 1, s) = ((f.hasNext s).1, n + 1, (f.hasNext s).2) :=
  rfl

/-- Once the constant term reads, a look ahead is the one from the next index. -/
theorem hasNext_skipped {a : Option α} (hp : f.pull s = (.ok a, s')) :
    (Derivative.feed f).hasNext (0, s) = (Derivative.feed f).hasNext (1, s') := by
  simp [Derivative.feed, Derivative.hasNext, skipConstant, hp]

/-- Once the constant term reads, a call is the one from the next index. -/
theorem tryNext_skipped {a : Option α} (hp : f.pull s = (.ok a, s')) :
    (Derivative.feed f).tryNext (0, s) = (Derivative.feed f).tryNext (1, s') := by
  simp [Derivative.feed, Derivative.tryNext, skipConstant, hp]

/-- Where the failure-free derivative is once it has skipped the constant term. -/
def skipped (p : ℕ × Stream'.Seq α) : ℕ × Stream'.Seq α :=
  if p.1 = 0 then (1, p.2.tail) else p

theorem hasNext_ofSeq_skipped (p : ℕ × Stream'.Seq α) :
    (Derivative.feed ofSeq).hasNext (skipped p) = (Derivative.feed ofSeq).hasNext p := by
  obtain ⟨_ | n, xs⟩ := p
  · simp [skipped, hasNext_skipped (ofSeq_pull xs)]
  · simp [skipped]

theorem tryNext_ofSeq_skipped (p : ℕ × Stream'.Seq α) :
    (Derivative.feed ofSeq).tryNext (skipped p) = (Derivative.feed ofSeq).tryNext p := by
  obtain ⟨_ | n, xs⟩ := p
  · simp [skipped, tryNext_skipped (ofSeq_pull xs)]
  · simp [skipped]

/-- The derivative over a failing input and over the failure-free one. Before the constant term
is skipped, it reads without failure; after, the failing derivative is where the failure-free one
is once it has skipped it, the inputs holding the same coefficients. -/
def Tracks (f : Feed σ α) (R : σ → Stream'.Seq α → ℕ → Prop) (p : ℕ × σ) (p₀ : ℕ × Stream'.Seq α)
    (k : ℕ) : Prop :=
  (p.1 = 0 ∧ p₀.1 = 0 ∧ ∃ s', f.pull p.2 = (.ok p₀.2.head, s') ∧ R s' p₀.2.tail k) ∨
    (p.1 ≠ 0 ∧ p.1 = (skipped p₀).1 ∧ R p.2 (skipped p₀).2 k)

section Past

variable (h : f.Transient R) (hs : R s ys k) (m : ℕ)
include h hs

/-- Past the constant term, a look ahead answers as the input's and keeps the index. -/
theorem hasNext_past :
    ∃ b s', (Derivative.feed f).hasNext (m + 1, s) = (.ok b, (m + 1, s')) ∧
      (Derivative.feed f).hasNext (m + 1, s') = (.ok b, (m + 1, s')) ∧ R s' ys k ∧
      ((Derivative.feed ofSeq).hasNext (m + 1, ys) = (.ok b, (m + 1, ys)) ∨
        b = true ∧ (Derivative.feed f).FailsAt (m + 1, s')) := by
  obtain ⟨b, s', hh, hh', hs', hb | ⟨rfl, e, s'', he, ht⟩⟩ := h.hasNext hs
  · exact ⟨b, s', by simp [hh], by simp [hh'], hs', .inl (by simp [hb])⟩
  · refine ⟨true, s', by simp [hh], by simp [hh'], hs', .inr ⟨rfl, e, (m + 1, s''), he, ?_⟩⟩
    simp [Derivative.feed, Derivative.tryNext, ht]

/-- Past the constant term, a call fails and keeps the index, or answers as the failure-free
derivative does and moves to the same index. -/
theorem tryNext_past :
    (∃ e s' k', e ≠ .exhausted ∧ k' < k ∧
      (Derivative.feed f).tryNext (m + 1, s) = (.error (.fail e), (m + 1, s')) ∧ R s' ys k') ∨
    ∃ m' s', m' ≠ 0 ∧
      (Derivative.feed f).tryNext (m + 1, s) =
        (((Derivative.feed ofSeq).tryNext (m + 1, ys)).1, (m', s')) ∧
      ((Derivative.feed ofSeq).tryNext (m + 1, ys)).2 = (m', ys.tail) ∧ R s' ys.tail k := by
  rcases h.tryNext hs with ⟨e, s', k', he, hk, ht, hs'⟩ | ⟨s', ht, hs'⟩
  · exact .inl ⟨e, s', k', he, hk, by simp [Derivative.feed, Derivative.tryNext, ht], hs'⟩
  · refine .inr ?_
    cases hx : Feed.answer ys with
    | error e =>
      exact ⟨m + 1, s', by omega, by simp [Derivative.feed, Derivative.tryNext, ht, hx],
        by simp [Derivative.feed, Derivative.tryNext, hx], hs'⟩
    | ok a =>
      exact ⟨m + 2, s', by omega, by simp [Derivative.feed, Derivative.tryNext, ht, hx],
        by simp [Derivative.feed, Derivative.tryNext, hx], hs'⟩

end Past

/-- Over the failure-free input the derivative never fails. -/
theorem steady : (Derivative.feed (ofSeq (α := α))).Steady fun _ => True where
  hasNext := by
    -- before the constant term is skipped, the derivative looks ahead as from the next index
    rintro ⟨_ | n, xs⟩ -
    · rw [hasNext_skipped (ofSeq_pull xs), tryNext_skipped (ofSeq_pull xs)]
      exact ⟨xs.tail.head.isSome, (1, xs.tail), by simp, by simp, trivial, rfl⟩
    · exact ⟨xs.head.isSome, (n + 1, xs), by simp, by simp, trivial, rfl⟩
  next := by
    rintro p p' - hh
    rw [← hasNext_ofSeq_skipped] at hh
    obtain ⟨n, xs, hp⟩ : ∃ n xs, skipped p = (n + 1, xs) := by
      obtain ⟨_ | n, xs⟩ := p <;> simp [skipped]
    rw [hp, hasNext_succ, ofSeq_hasNext, Prod.mk.injEq, Except.ok.injEq] at hh
    obtain ⟨hx, rfl⟩ := hh
    obtain ⟨a, ha⟩ := Option.isSome_iff_exists.1 hx
    exact ⟨a * Coefficient.ofIndex (n + 1), (n + 2, xs.tail),
      by simp [Derivative.feed, Derivative.tryNext, Feed.answer, ha], trivial⟩
  stop := by
    rintro p p' - hh
    rw [← hasNext_ofSeq_skipped] at hh
    obtain ⟨n, xs, hp⟩ : ∃ n xs, skipped p = (n + 1, xs) := by
      obtain ⟨_ | n, xs⟩ := p <;> simp [skipped]
    rw [hp, hasNext_succ, ofSeq_hasNext, Prod.mk.injEq, Except.ok.injEq] at hh
    obtain ⟨hx, rfl⟩ := hh
    rw [Option.isSome_eq_false_iff, Option.isNone_iff_eq_none, Stream'.Seq.head_eq_none_iff] at hx
    subst hx
    simp [Derivative.feed, Derivative.tryNext, Feed.answer, Outcome.exhausted]

/-- Before the skip the constant term reads, and the failing derivative behaves as after it. -/
theorem Tracks.skip {p : ℕ × σ} {p₀ : ℕ × Stream'.Seq α} (hs : Tracks f R p p₀ k) :
    ∃ n s, (Derivative.feed f).hasNext p = (Derivative.feed f).hasNext (n, s) ∧
      (Derivative.feed f).tryNext p = (Derivative.feed f).tryNext (n, s) ∧
      n ≠ 0 ∧ n = (skipped p₀).1 ∧ R s (skipped p₀).2 k := by
  rcases hs with ⟨hp, hp₀, s', hpull, hs'⟩ | ⟨hn, hp, hs⟩
  · obtain ⟨_, s⟩ := p
    obtain ⟨_, xs⟩ := p₀
    dsimp only at hp hp₀ hpull hs'
    subst hp hp₀
    exact ⟨1, s', hasNext_skipped hpull, tryNext_skipped hpull, one_ne_zero, rfl, hs'⟩
  · exact ⟨p.1, p.2, rfl, rfl, hn, hp, hs⟩

/-- Once the failing derivative has skipped the constant term, it follows the failure-free one. -/
theorem follows_skipped (h : f.Transient R) {p : ℕ × σ} {p₀ : ℕ × Stream'.Seq α} {n : ℕ}
    (hh : (Derivative.feed f).hasNext p = (Derivative.feed f).hasNext (n, s))
    (ht : (Derivative.feed f).tryNext p = (Derivative.feed f).tryNext (n, s))
    (hn : n ≠ 0) (hp : n = (skipped p₀).1) (hs : R s (skipped p₀).2 k) :
    (∃ b p', (Derivative.feed f).hasNext p = (.ok b, p') ∧
      (Derivative.feed f).hasNext p' = (.ok b, p') ∧
      ((∃ p₀', (Derivative.feed ofSeq).hasNext p₀ = (.ok b, p₀') ∧ Tracks f R p' p₀' k) ∨
        (b = true ∧ (Derivative.feed f).FailsAt p' ∧ Tracks f R p' p₀ k))) ∧
    (Fails (Derivative.feed f).tryNext (Tracks f R) p p₀ k ∨
      ∃ p', (Derivative.feed f).tryNext p = (((Derivative.feed ofSeq).tryNext p₀).1, p') ∧
        Tracks f R p' ((Derivative.feed ofSeq).tryNext p₀).2 k) := by
  obtain ⟨m, rfl⟩ := Nat.exists_eq_succ_of_ne_zero hn
  rcases hq : skipped p₀ with ⟨m₀, ys⟩
  rw [hq] at hp hs
  obtain rfl : m₀ = m + 1 := hp.symm
  rw [← hasNext_ofSeq_skipped, ← tryNext_ofSeq_skipped, hq, hh, ht]
  constructor
  · obtain ⟨b, s', hh, hh', hs', hb | ⟨rfl, hf⟩⟩ := hasNext_past h hs m
    · exact ⟨b, _, hh, hh', .inl ⟨_, hb, .inr ⟨by omega, by simp [skipped], by simpa [skipped]⟩⟩⟩
    · exact ⟨true, _, hh, hh', .inr ⟨rfl, hf, .inr ⟨by omega, by rw [hq], by rwa [hq]⟩⟩⟩
  · rcases tryNext_past h hs m with ⟨e, s', k', he, hk, ht', hs'⟩ | ⟨m', s', hm', ht', ht₀, hs'⟩
    · exact .inl ⟨e, _, k', he, hk, ht.trans ht', .inr ⟨by omega, by rw [hq], by rwa [hq]⟩⟩
    · refine .inr ⟨_, ht', ?_⟩
      rw [ht₀]
      exact .inr ⟨hm', by simp [skipped, hm'], by simpa [skipped, hm'] using hs'⟩

/-- The derivative over a failing input follows the derivative over the failure-free one. -/
theorem follows (h : f.Transient R) :
    (Derivative.feed f).Follows (Derivative.feed ofSeq) (Tracks f R) where
  hasNext hs := by
    obtain ⟨n, s, hh, ht, hn, hp, hs⟩ := hs.skip
    exact (follows_skipped h hh ht hn hp hs).1
  tryNext hs := by
    obtain ⟨n, s, hh, ht, hn, hp, hs⟩ := hs.skip
    exact (follows_skipped h hh ht hn hp hs).2

end Derivative

/-! ## Reciprocal -/

namespace Reciprocal

variable {f : Feed σ α} {R : σ → Stream'.Seq α → ℕ → Prop}

/-- The reciprocal over a failing input and over the failure-free one: the same coefficients read
and results, the inputs holding the same coefficients. -/
def Tracks (R : σ → Stream'.Seq α → ℕ → Prop) (p : Reciprocal α × σ)
    (p₀ : Reciprocal α × Stream'.Seq α) (k : ℕ) : Prop :=
  p.1 = p₀.1 ∧ R p.2 p₀.2 k

/-- Over the failure-free input the reciprocal never fails. -/
theorem steady : (Reciprocal.feed (ofSeq (α := α))).Steady fun _ => True := by
  refine .of_still (fun {p} _ => ⟨true, rfl⟩) (fun {p} _ _ => ?_) (fun {p} _ hh => by cases hh)
  obtain ⟨st, xs⟩ := p
  by_cases hn : st.result = #[]
  · simp [Reciprocal.feed, Reciprocal.tryNext, hn]
  · rcases hr : Product.readAt ofSeq st.result.size st.coeffs xs with ⟨_ | coeffs, xs'⟩
    · -- the failure-free input never fails
      exfalso
      by_cases hk : st.coeffs.size ≤ st.result.size
      · cases hx : xs.head <;> simp [Product.readAt, hk, hx] at hr
      · simp [Product.readAt, hk] at hr
    · simp [Reciprocal.feed, Reciprocal.tryNext, hn, hr]

/-- The reciprocal over a failing input follows the reciprocal over the failure-free one. -/
theorem follows (h : f.Transient R) :
    (Reciprocal.feed f).Follows (Reciprocal.feed ofSeq) (Tracks R) where
  hasNext := by
    rintro ⟨st, s⟩ ⟨_, xs⟩ k ⟨rfl, hs⟩
    exact ⟨true, (st, s), rfl, rfl, .inl ⟨(st, xs), rfl, rfl, hs⟩⟩
  tryNext := by
    rintro ⟨st, s⟩ ⟨_, xs⟩ k ⟨rfl, hs⟩
    by_cases hn : st.result = #[]
    · -- the leading coefficient's reciprocal reads nothing
      refine .inr ⟨_, Prod.ext ?_ rfl, ?_, ?_⟩
      · simp [Reciprocal.feed, Reciprocal.tryNext, hn]
      · simp [Reciprocal.feed, Reciprocal.tryNext, hn]
      · simpa [Reciprocal.feed, Reciprocal.tryNext, hn] using hs
    · rcases Product.readAt_follows h hs st.result.size st.coeffs with
        ⟨e, s', k', he, hk, hr, hs'⟩ | ⟨s', hr, hs'⟩
      · exact .inl ⟨e, (st, s'), k', he, hk, by simp [Reciprocal.feed, Reciprocal.tryNext, hn, hr],
          rfl, hs'⟩
      · rcases hr₀ : Product.readAt ofSeq st.result.size st.coeffs xs with ⟨r₀, xs'⟩
        rw [hr₀] at hr hs'
        cases r₀ with
        | error e =>
          exact .inr ⟨(st, s'), by simp [Reciprocal.feed, Reciprocal.tryNext, hn, hr, hr₀],
            by simp [Reciprocal.feed, Reciprocal.tryNext, hn, hr₀], by
              simpa [Reciprocal.feed, Reciprocal.tryNext, hn, hr₀] using hs'⟩
        | ok coeffs =>
          refine .inr ⟨_, Prod.ext ?_ rfl, ?_, ?_⟩
          · simp [Reciprocal.feed, Reciprocal.tryNext, hn, hr, hr₀]
          · simp [Reciprocal.feed, Reciprocal.tryNext, hn, hr, hr₀]
          · simpa [Reciprocal.feed, Reciprocal.tryNext, hn, hr, hr₀] using hs'

end Reciprocal

/-! ## Sum -/

namespace SeriesSum

section Steps

variable {left right : Feed σ α} {st : SeriesSum α} {s s' s'' : σ}

@[simp] theorem feed_hasNext (left right : Feed σ α) (st : SeriesSum α) (s : σ) :
    (SeriesSum.feed left right).hasNext (st, s) =
      ((hasNext left right st s).1, st, (hasNext left right st s).2) :=
  rfl

@[simp] theorem feed_tryNext (left right : Feed σ α) (st : SeriesSum α) (s : σ) :
    (SeriesSum.feed left right).tryNext (st, s) =
      ((tryNext left right st s).1, (tryNext left right st s).2.1, (tryNext left right st s).2.2) :=
  rfl

omit [Coefficient α] in
/-- Setting what the sum holds to what it holds changes nothing. -/
theorem with_held_self {h : Option α} (hst : st.held = h) : { st with held := h } = st := by
  subst hst
  rfl

theorem tryNext_ended (hh : hasNext left right st s = (.ok false, s')) :
    tryNext left right st s = (Outcome.exhausted, st, s') := by
  simp [tryNext, hh]

/-- After a look ahead that answered `true`, a call reads the left coefficient and then goes on as
the call with it held. -/
theorem tryNext_read {x : Option α} (hst : st.held = none) (hh : hasNext left right st s = (.ok true, s'))
    (hl : left.pull s' = (.ok x, s'')) :
    tryNext left right st s = tryNext left right { st with held := some (x.getD Coefficient.zero) } s'' := by
  simp only [tryNext, hh, hst, hl]
  simp [hasNext]

theorem tryNext_left_fails {h : Halt} (hst : st.held = none)
    (hh : hasNext left right st s = (.ok true, s')) (hl : left.pull s' = (.error h, s'')) :
    tryNext left right st s = (.error h, st, s'') := by
  cases st
  simp_all [tryNext]

/-- With a coefficient held, a call adds the right coefficient it reads. -/
theorem tryNext_held {a : α} {y : Option α} (hst : st.held = some a) (hr : right.pull s = (.ok y, s')) :
    tryNext left right st s =
      (.ok (a + st.factor * y.getD Coefficient.zero), { st with held := none }, s') := by
  simp [tryNext, hasNext, hst, hr]

/-- With a coefficient held, a failed right read keeps it. -/
theorem tryNext_held_fails {a : α} {e : SeqError} (hst : st.held = some a)
    (hr : right.pull s = (.error (.fail e), s')) :
    tryNext left right st s = (.error (.fail e), st, s') := by
  simp [tryNext, hasNext, hst, hr, with_held_self hst]

end Steps

variable {σ₁ σ₂ : Type} {f₁ : Feed σ₁ α} {f₂ : Feed σ₂ α} {R₁ : σ₁ → Stream'.Seq α → ℕ → Prop}
  {R₂ : σ₂ → Stream'.Seq α → ℕ → Prop} {st : SeriesSum α} {xs₁ xs₂ : Stream'.Seq α}

omit [Coefficient α] in
/-- The sum over failure-free inputs looks ahead without moving: a coefficient goes on on one
side. -/
theorem hasNext_ofSeq (hst : st.held = none) (xs₁ xs₂ : Stream'.Seq α) :
    hasNext ofSeq.onLeft ofSeq.onRight st (xs₁, xs₂) =
      (.ok (xs₁.head.isSome || xs₂.head.isSome), (xs₁, xs₂)) := by
  cases hx : xs₁.head.isSome <;> simp [hasNext, hst, hx]

/-- The sum over failure-free inputs adds their heads. -/
theorem tryNext_ofSeq (hst : st.held = none) (hb : (xs₁.head.isSome || xs₂.head.isSome) = true) :
    tryNext ofSeq.onLeft ofSeq.onRight st (xs₁, xs₂) =
      (.ok (xs₁.head.getD Coefficient.zero + st.factor * xs₂.head.getD Coefficient.zero), st,
        (xs₁.tail, xs₂.tail)) := by
  rw [tryNext_read hst (by rw [hasNext_ofSeq hst, hb])
    (show ofSeq.onLeft.pull (xs₁, xs₂) = (.ok xs₁.head, (xs₁.tail, xs₂)) by simp),
    tryNext_held rfl (show ofSeq.onRight.pull (xs₁.tail, xs₂) = (.ok xs₂.head, (xs₁.tail, xs₂.tail))
      by simp)]
  simp only [with_held_self hst]

/-- Over failure-free inputs the sum never fails. -/
theorem steady : (SeriesSum.feed (ofSeq (α := α)).onLeft ofSeq.onRight).Steady
    fun p => p.1.held = none := by
  refine .of_still (fun {p} hp => ?_) (fun {p} hp hh => ?_) (fun {p} hp hh => ?_) <;>
    obtain ⟨st, xs₁, xs₂⟩ := p <;> change st.held = none at hp
  · exact ⟨_, by rw [feed_hasNext, hasNext_ofSeq hp]⟩
  · rw [feed_hasNext, hasNext_ofSeq hp] at hh
    have hb : (xs₁.head.isSome || xs₂.head.isSome) = true := by simpa using hh
    exact ⟨_, (st, xs₁.tail, xs₂.tail), by rw [feed_tryNext, tryNext_ofSeq hp hb], hp⟩
  · have hend := hasNext_ofSeq hp xs₁ xs₂
    rw [feed_hasNext, hend] at hh
    have hb : (xs₁.head.isSome || xs₂.head.isSome) = false := by simpa using hh
    rw [hb] at hend
    simp [tryNext_ended hend]

omit [Coefficient α] in
/-- A look ahead of the sum holding nothing over failing inputs, the right one answering whether
its sequence goes on: an answer for both sides, or `true` for a failure of the left input kept
for the next call. -/
theorem hasNext_sides (hL : f₁.Transient R₁) (hR : f₂.Transient R₂) (hT : f₂.Truthful R₂)
    {s₁ : σ₁} {s₂ : σ₂} {k₁ k₂ : ℕ} (hst : st.held = none) (hs₁ : R₁ s₁ xs₁ k₁)
    (hs₂ : R₂ s₂ xs₂ k₂) :
    ∃ b s₁' s₂', hasNext f₁.onLeft f₂.onRight st (s₁, s₂) = (.ok b, (s₁', s₂')) ∧
      hasNext f₁.onLeft f₂.onRight st (s₁', s₂') = (.ok b, (s₁', s₂')) ∧
      R₁ s₁' xs₁ k₁ ∧ R₂ s₂' xs₂ k₂ ∧
      (b = (xs₁.head.isSome || xs₂.head.isSome) ∨
        b = true ∧ f₁.hasNext s₁' = (.ok true, s₁') ∧ f₁.FailsAt s₁') := by
  obtain ⟨b₁, s₁', hh, hh₁, hs₁', hb₁⟩ := hL.hasNext hs₁
  cases b₁ with
  | false =>
    -- the left input has ended, and the right one answers truthfully
    have hx : xs₁.head.isSome = false := by
      rcases hb₁ with hb | ⟨hb, -⟩
      · exact hb.symm
      · cases hb
    obtain ⟨b₂, s₂', hr, hr₂, hs₂', -⟩ := hR.hasNext hs₂
    have hb₂ : b₂ = xs₂.head.isSome := by
      have ht := hT hs₂
      rw [hr, Except.ok.injEq] at ht
      exact ht
    exact ⟨b₂, s₁', s₂', by simp [hasNext, hst, hh, hr], by simp [hasNext, hst, hh₁, hr₂],
      hs₁', hs₂', .inl (by simp [hx, hb₂])⟩
  | true =>
    refine ⟨true, s₁', s₂, by simp [hasNext, hst, hh], by simp [hasNext, hst, hh₁], hs₁', hs₂, ?_⟩
    rcases hb₁ with hb | ⟨-, hf⟩
    · exact .inl (by simp [← hb])
    · exact .inr ⟨rfl, hh₁, hf⟩

/-- The sum over failing inputs and over failure-free ones. The failure-free sum holds nothing and
the same factor, and the right inputs hold the same coefficients. The left ones do too, or the
failing sum holds the head of the left coefficients, read, while one side goes on. -/
def Tracks (R₁ : σ₁ → Stream'.Seq α → ℕ → Prop) (R₂ : σ₂ → Stream'.Seq α → ℕ → Prop) :
    SeriesSum α × σ₁ × σ₂ → SeriesSum α × Stream'.Seq α × Stream'.Seq α → ℕ → Prop
  | (st, s₁, s₂), (st₀, xs₁, xs₂), k =>
    st.factor = st₀.factor ∧ st₀.held = none ∧ ∃ k₁ k₂, k₁ + k₂ ≤ k ∧ R₂ s₂ xs₂ k₂ ∧
      ((st.held = none ∧ R₁ s₁ xs₁ k₁) ∨
        (st.held = some (xs₁.head.getD Coefficient.zero) ∧ R₁ s₁ xs₁.tail k₁ ∧
          (xs₁.head.isSome || xs₂.head.isSome) = true))

/-- With the left coefficient held, a call of the failing sum fails keeping it, or adds the right
coefficient as the failure-free sum does. -/
theorem tryNext_held_follows (st : SeriesSum α) (hR : f₂.Transient R₂) {st₀ : SeriesSum α} {s₁ : σ₁} {s₂ : σ₂}
    {k₁ k₂ k : ℕ} (hf : st.factor = st₀.factor) (h₀ : st₀.held = none) (hk : k₁ + k₂ ≤ k)
    (hs₂ : R₂ s₂ xs₂ k₂) (hst : st.held = some (xs₁.head.getD Coefficient.zero))
    (hs₁ : R₁ s₁ xs₁.tail k₁) (hb : (xs₁.head.isSome || xs₂.head.isSome) = true) :
    Fails (SeriesSum.feed f₁.onLeft f₂.onRight).tryNext (Tracks R₁ R₂) (st, s₁, s₂)
        (st₀, xs₁, xs₂) k ∨
      ∃ p', (SeriesSum.feed f₁.onLeft f₂.onRight).tryNext (st, s₁, s₂) =
          (((SeriesSum.feed ofSeq.onLeft ofSeq.onRight).tryNext (st₀, xs₁, xs₂)).1, p') ∧
        Tracks R₁ R₂ p' ((SeriesSum.feed ofSeq.onLeft ofSeq.onRight).tryNext (st₀, xs₁, xs₂)).2 k := by
  rcases hR.pull hs₂ with ⟨e, s₂', k₂', he, hk₂, hp, hs₂'⟩ | ⟨s₂', hp, hs₂'⟩
  · refine .inl ⟨e, (st, s₁, s₂'), k₁ + k₂', he, by omega, ?_, hf, h₀, k₁, k₂', le_rfl, hs₂',
      .inr ⟨hst, hs₁, hb⟩⟩
    simp [tryNext_held_fails hst
      (show f₂.onRight.pull (s₁, s₂) = (.error (.fail e), (s₁, s₂')) by simp [hp])]
  · refine .inr ⟨({ st with held := none }, s₁, s₂'), ?_, ?_⟩
    · simp [tryNext_held hst (show f₂.onRight.pull (s₁, s₂) = (.ok xs₂.head, (s₁, s₂')) by simp [hp]),
        tryNext_ofSeq h₀ hb, hf]
    · exact ⟨by simp [tryNext_ofSeq h₀ hb, hf], by simp [tryNext_ofSeq h₀ hb, h₀],
        k₁, k₂, hk, by simpa [tryNext_ofSeq h₀ hb] using hs₂',
        .inl ⟨rfl, by simpa [tryNext_ofSeq h₀ hb] using hs₁⟩⟩

/-- The sum over failing inputs follows the sum over failure-free ones when the right input
answers whether its sequence goes on. -/
theorem follows (hL : f₁.Transient R₁) (hR : f₂.Transient R₂) (hT : f₂.Truthful R₂) :
    (SeriesSum.feed f₁.onLeft f₂.onRight).Follows (SeriesSum.feed ofSeq.onLeft ofSeq.onRight)
      (Tracks R₁ R₂) where
  hasNext := by
    rintro ⟨st, s₁, s₂⟩ ⟨st₀, xs₁, xs₂⟩ k ⟨hf, h₀, k₁, k₂, hk, hs₂, ⟨hst, hs₁⟩ | ⟨hst, hs₁, hb⟩⟩
    · obtain ⟨b, s₁', s₂', hh, hh', hs₁', hs₂', hb | ⟨rfl, hh₁, hfail⟩⟩ :=
        hasNext_sides hL hR hT hst hs₁ hs₂
      · exact ⟨b, (st, s₁', s₂'), by simp [hh], by simp [hh'],
          .inl ⟨(st₀, xs₁, xs₂), by simp [hasNext_ofSeq h₀, hb], hf, h₀, k₁, k₂, hk, hs₂',
            .inl ⟨hst, hs₁'⟩⟩⟩
      · -- the left input keeps a failure for the next call, which the sum passes on
        obtain ⟨e, s₁'', he, ht⟩ := hfail
        refine ⟨true, (st, s₁', s₂'), by simp [hh], by simp [hh'],
          .inr ⟨rfl, ⟨e, (st, s₁'', s₂'), he, ?_⟩, hf, h₀, k₁, k₂, hk, hs₂', .inl ⟨hst, hs₁'⟩⟩⟩
        have hl : f₁.onLeft.pull (s₁', s₂') = (.error (.fail e), (s₁'', s₂')) := by
          simp [pull_of_fails hh₁ he ht]
        simp [tryNext_left_fails hst hh' hl]
    · -- a held coefficient answers for the failing sum, and one side goes on
      have hheld : st.held.isSome := by simp [hst]
      exact ⟨true, (st, s₁, s₂), by simp [hasNext, hheld], by simp [hasNext, hheld],
        .inl ⟨(st₀, xs₁, xs₂), by simp [hasNext_ofSeq h₀, hb], hf, h₀, k₁, k₂, hk, hs₂,
          .inr ⟨hst, hs₁, hb⟩⟩⟩
  tryNext := by
    rintro ⟨st, s₁, s₂⟩ ⟨st₀, xs₁, xs₂⟩ k ⟨hf, h₀, k₁, k₂, hk, hs₂, ⟨hst, hs₁⟩ | ⟨hst, hs₁, hb⟩⟩
    · obtain ⟨b, s₁', s₂', hh, -, hs₁', hs₂', hb⟩ := hasNext_sides hL hR hT hst hs₁ hs₂
      cases b with
      | false =>
        -- both sides have ended
        have hb₀ : (xs₁.head.isSome || xs₂.head.isSome) = false := by
          rcases hb with hb | ⟨hb, -⟩
          · exact hb.symm
          · cases hb
        have hend := hasNext_ofSeq h₀ xs₁ xs₂
        rw [hb₀] at hend
        refine .inr ⟨(st, s₁', s₂'), by simp [tryNext_ended hh, tryNext_ended hend], ?_⟩
        rw [feed_tryNext, tryNext_ended hend]
        exact ⟨hf, h₀, k₁, k₂, hk, hs₂', .inl ⟨hst, hs₁'⟩⟩
      | true =>
        rcases hL.pull hs₁' with ⟨e, s₁'', k₁', he, hk₁, hp, hs₁''⟩ | ⟨s₁'', hp, hs₁''⟩
        · -- the left read fails, and nothing is held
          have hl : f₁.onLeft.pull (s₁', s₂') = (.error (.fail e), (s₁'', s₂')) := by simp [hp]
          exact .inl ⟨e, (st, s₁'', s₂'), k₁' + k₂, he, by omega,
            by simp [tryNext_left_fails hst hh hl], hf, h₀, k₁', k₂, le_rfl, hs₂', .inl ⟨hst, hs₁''⟩⟩
        · -- the left coefficient is read and held, and the call goes on as a held one
          have hl : f₁.onLeft.pull (s₁', s₂') = (.ok xs₁.head, (s₁'', s₂')) := by simp [hp]
          have hb' : (xs₁.head.isSome || xs₂.head.isSome) = true := by
            rcases hb with hb | ⟨-, hh₁, e, t, he, ht⟩
            · exact hb ▸ rfl
            · rw [pull_of_fails hh₁ he ht] at hp
              cases hp
          have hread := tryNext_read hst hh hl
          rcases tryNext_held_follows { st with held := some (xs₁.head.getD Coefficient.zero) }
              hR hf h₀ hk hs₂' rfl hs₁'' hb' with ⟨e, p', k', he, hk', ht, hs'⟩ | ⟨p', ht, hs'⟩
          · exact .inl ⟨e, p', k', he, hk', by simpa [hread] using ht, hs'⟩
          · exact .inr ⟨p', by simpa [hread] using ht, hs'⟩
    · exact tryNext_held_follows st hR hf h₀ hk hs₂ hst hs₁ hb

end SeriesSum

/-! ## Product -/

namespace Product

section Steps

variable {left right : Feed σ α} {st : Product α} {s s₁ s₂ s₃ : σ}

@[simp] theorem feed_hasNext (left right : Feed σ α) (st : Product α) (s : σ) :
    (Product.feed left right).hasNext (st, s) =
      ((hasNext left right st s).1, st, (hasNext left right st s).2) :=
  rfl

@[simp] theorem feed_tryNext (left right : Feed σ α) (st : Product α) (s : σ) :
    (Product.feed left right).tryNext (st, s) =
      ((tryNext left right st s).1, (tryNext left right st s).2.1, (tryNext left right st s).2.2) :=
  rfl

theorem tryNext_ended (hh : hasNext left right st s = (.ok false, s₁)) :
    tryNext left right st s = (Outcome.exhausted, st, s₁) := by
  simp [tryNext, hh]

theorem tryNext_left_fails {h : Halt} (hh : hasNext left right st s = (.ok true, s₁))
    (hl : readAt left st.index st.leftCoeffs s₁ = (.error h, s₂)) :
    tryNext left right st s = (.error h, st, s₂) := by
  simp [tryNext, hh, hl]

/-- A failed right read keeps the left coefficient read. -/
theorem tryNext_right_fails {h : Halt} {lc : Array α} (hh : hasNext left right st s = (.ok true, s₁))
    (hl : readAt left st.index st.leftCoeffs s₁ = (.ok lc, s₂))
    (hr : readAt right st.index st.rightCoeffs s₂ = (.error h, s₃)) :
    tryNext left right st s = (.error h, { st with leftCoeffs := lc }, s₃) := by
  simp [tryNext, hh, hl, hr]

theorem tryNext_reads {lc rc : Array α} (hh : hasNext left right st s = (.ok true, s₁))
    (hl : readAt left st.index st.leftCoeffs s₁ = (.ok lc, s₂))
    (hr : readAt right st.index st.rightCoeffs s₂ = (.ok rc, s₃)) :
    tryNext left right st s = (.ok (Coefficient.convolveAt lc rc st.index),
      { st with leftCoeffs := lc, rightCoeffs := rc, index := st.index + 1 }, s₃) := by
  simp [tryNext, hh, hl, hr]

end Steps

section Reads

variable {f : Feed σ α} {n : ℕ} {known : Array α} {s s' : σ} {xs : Stream'.Seq α}

omit [Coefficient α] in
/-- A coefficient already known is not read again. -/
theorem readAt_skip (hn : n < known.size) (f : Feed σ α) (s : σ) :
    readAt f n known s = (.ok known, s) := by
  simp [readAt, Nat.not_le.2 hn]

omit [Coefficient α] in
theorem readAt_of_pull_error {h : Halt} (hn : known.size ≤ n) (hp : f.pull s = (.error h, s')) :
    readAt f n known s = (.error h, s') := by
  simp [readAt, hn, hp]

omit [Coefficient α] in
theorem readAt_of_pull_none (hn : known.size ≤ n) (hp : f.pull s = (.ok none, s')) :
    readAt f n known s = (.ok known, s') := by
  simp [readAt, hn, hp]

omit [Coefficient α] in
@[simp] theorem readAt_onLeft (f : Feed σ₁ α) (n : ℕ) (known : Array α) (s₁ : σ₁) (s₂ : σ₂) :
    readAt f.onLeft n known (s₁, s₂) = ((readAt f n known s₁).1, (readAt f n known s₁).2, s₂) := by
  by_cases hn : known.size ≤ n
  · rcases hp : f.pull s₁ with ⟨_ | _ | a, t⟩ <;> simp [readAt, hn, hp]
  · simp [readAt, hn]

omit [Coefficient α] in
@[simp] theorem readAt_onRight (f : Feed σ₂ α) (n : ℕ) (known : Array α) (s₁ : σ₁) (s₂ : σ₂) :
    readAt f.onRight n known (s₁, s₂) = ((readAt f n known s₂).1, s₁, (readAt f n known s₂).2) := by
  by_cases hn : known.size ≤ n
  · rcases hp : f.pull s₂ with ⟨_ | _ | a, t⟩ <;> simp [readAt, hn, hp]
  · simp [readAt, hn]

/-- The coefficients known after reading coefficient `n` of `xs` when it is not known yet, and
what is left of `xs`. -/
def readSeq (n : ℕ) (known : Array α) (xs : Stream'.Seq α) : Array α × Stream'.Seq α :=
  if known.size ≤ n then (xs.head.elim known known.push, xs.tail) else (known, xs)

omit [Coefficient α] in
/-- The failure-free input is read as `readSeq` says. -/
@[simp] theorem readAt_ofSeq (n : ℕ) (known : Array α) (xs : Stream'.Seq α) :
    readAt ofSeq n known xs = (.ok (readSeq n known xs).1, (readSeq n known xs).2) := by
  by_cases hn : known.size ≤ n
  · cases hx : xs.head <;> simp [readAt, readSeq, hn, hx]
  · simp [readAt, readSeq, hn]

omit [Coefficient α] in
@[simp] theorem readSeq_nil (n : ℕ) (known : Array α) :
    readSeq n known (.nil : Stream'.Seq α) = (known, .nil) := by
  by_cases hn : known.size ≤ n <;> simp [readSeq, hn]

omit [Coefficient α] in
theorem readSeq_of_head {a : α} (hn : known.size ≤ n) (hx : xs.head = some a) :
    readSeq n known xs = (known.push a, xs.tail) := by
  simp [readSeq, hn, hx]

end Reads

variable {σ₁ σ₂ : Type} {f₁ : Feed σ₁ α} {f₂ : Feed σ₂ α} {R₁ : σ₁ → Stream'.Seq α → ℕ → Prop}
  {R₂ : σ₂ → Stream'.Seq α → ℕ → Prop} {st : Product α} {xs₁ xs₂ : Stream'.Seq α}

/-- What the product over failure-free inputs answers when it looks ahead: a coefficient goes on
on one side, or the product of what was read has coefficients left. -/
def goesOn (st : Product α) (xs₁ xs₂ : Stream'.Seq α) : Bool :=
  xs₁.head.isSome || xs₂.head.isSome ||
    decide (st.index + 1 < st.leftCoeffs.size + st.rightCoeffs.size)

omit [Coefficient α] in
theorem hasNext_ofSeq (st) (xs₁ xs₂ : Stream'.Seq α) :
    hasNext ofSeq.onLeft ofSeq.onRight st (xs₁, xs₂) = (.ok (goesOn st xs₁ xs₂), (xs₁, xs₂)) := by
  cases h₁ : xs₁.head.isSome <;> cases h₂ : xs₂.head.isSome <;> simp [hasNext, goesOn, h₁, h₂]

/-- The product over failure-free inputs reads coefficient `index` of both and hands out the
coefficient of the product of what it knows. -/
theorem tryNext_ofSeq (hb : goesOn st xs₁ xs₂ = true) :
    tryNext ofSeq.onLeft ofSeq.onRight st (xs₁, xs₂) =
      (.ok (Coefficient.convolveAt (readSeq st.index st.leftCoeffs xs₁).1
          (readSeq st.index st.rightCoeffs xs₂).1 st.index),
        { st with leftCoeffs := (readSeq st.index st.leftCoeffs xs₁).1,
                  rightCoeffs := (readSeq st.index st.rightCoeffs xs₂).1, index := st.index + 1 },
        ((readSeq st.index st.leftCoeffs xs₁).2, (readSeq st.index st.rightCoeffs xs₂).2)) :=
  tryNext_reads (by rw [hasNext_ofSeq, hb])
    (show readAt ofSeq.onLeft _ _ (xs₁, xs₂) =
      (.ok (readSeq st.index st.leftCoeffs xs₁).1, ((readSeq st.index st.leftCoeffs xs₁).2, xs₂))
      by simp)
    (by simp)

/-- Over failure-free inputs the product never fails. -/
theorem steady : (Product.feed (ofSeq (α := α)).onLeft ofSeq.onRight).Steady fun _ => True := by
  refine .of_still (fun {p} _ => ?_) (fun {p} _ hh => ?_) (fun {p} _ hh => ?_) <;>
    obtain ⟨st, xs₁, xs₂⟩ := p
  · exact ⟨_, by rw [feed_hasNext, hasNext_ofSeq]⟩
  · rw [feed_hasNext, hasNext_ofSeq] at hh
    have hb : goesOn st xs₁ xs₂ = true := by simpa using hh
    exact ⟨_, _, by rw [feed_tryNext, tryNext_ofSeq hb], trivial⟩
  · have hend := hasNext_ofSeq st xs₁ xs₂
    rw [feed_hasNext, hend] at hh
    have hb : goesOn st xs₁ xs₂ = false := by simpa using hh
    rw [hb] at hend
    simp [tryNext_ended hend]

/-- The product over failure-free inputs reads each coefficient at its own index: fewer left
coefficients are known than the index only once the left input has ended, and the right series
is not empty. -/
def Aligned (st : Product α) (xs₁ xs₂ : Stream'.Seq α) : Prop :=
  st.leftCoeffs.size ≤ st.index ∧ (st.leftCoeffs.size < st.index → xs₁ = .nil) ∧
    st.rightCoeffs.size ≤ st.index ∧ (st.rightCoeffs.size ≠ 0 ∨ xs₂.head.isSome)

omit [Coefficient α] in
/-- A left coefficient still to come is the one at the index. -/
theorem Aligned.left_size {a : α} (ha : Aligned st xs₁ xs₂) (hx : xs₁.head = some a) :
    st.leftCoeffs.size = st.index := by
  by_contra hne
  have hnil := ha.2.1 (lt_of_le_of_ne ha.1 hne)
  simp [hnil] at hx

omit [Coefficient α] in
/-- Reading both inputs at the index keeps the product aligned at the next index. -/
theorem Aligned.read (ha : Aligned st xs₁ xs₂) :
    Aligned
      { st with leftCoeffs := (readSeq st.index st.leftCoeffs xs₁).1,
                rightCoeffs := (readSeq st.index st.rightCoeffs xs₂).1, index := st.index + 1 }
      (readSeq st.index st.leftCoeffs xs₁).2 (readSeq st.index st.rightCoeffs xs₂).2 := by
  obtain ⟨hl, hln, hr, hrn⟩ := ha
  refine ⟨?_, ?_, ?_, ?_⟩ <;> dsimp only
  all_goals
    cases hx₁ : xs₁.head <;> cases hx₂ : xs₂.head <;>
      simp_all [readSeq, Stream'.Seq.head_eq_none_iff] <;> omega

/-- The product over failing inputs and over failure-free ones. The failure-free product is
aligned, and the right inputs hold the same coefficients. The two products are in the same state
with the left inputs holding the same coefficients, or the failing one has read the next left
coefficient and keeps it. -/
def Tracks (R₁ : σ₁ → Stream'.Seq α → ℕ → Prop) (R₂ : σ₂ → Stream'.Seq α → ℕ → Prop) :
    Product α × σ₁ × σ₂ → Product α × Stream'.Seq α × Stream'.Seq α → ℕ → Prop
  | (st, s₁, s₂), (st₀, xs₁, xs₂), k =>
    Aligned st₀ xs₁ xs₂ ∧ ∃ k₁ k₂, k₁ + k₂ ≤ k ∧ R₂ s₂ xs₂ k₂ ∧
      ((st = st₀ ∧ R₁ s₁ xs₁ k₁) ∨
        ∃ a, xs₁.head = some a ∧ st = { st₀ with leftCoeffs := st₀.leftCoeffs.push a } ∧
          R₁ s₁ xs₁.tail k₁)

omit [Coefficient α] in
/-- A look ahead of the product over failing inputs: the answer over failure-free ones, or `true`
for a failure kept by the left input, or by the right one once the left has ended. -/
theorem hasNext_sides (st : Product α) (hL : f₁.Transient R₁) (hR : f₂.Transient R₂)
    {s₁ : σ₁} {s₂ : σ₂}
    {k₁ k₂ : ℕ} (hs₁ : R₁ s₁ xs₁ k₁) (hs₂ : R₂ s₂ xs₂ k₂) :
    ∃ b s₁' s₂', hasNext f₁.onLeft f₂.onRight st (s₁, s₂) = (.ok b, (s₁', s₂')) ∧
      hasNext f₁.onLeft f₂.onRight st (s₁', s₂') = (.ok b, (s₁', s₂')) ∧
      R₁ s₁' xs₁ k₁ ∧ R₂ s₂' xs₂ k₂ ∧
      (b = goesOn st xs₁ xs₂ ∨ b = true ∧ (f₁.hasNext s₁' = (.ok true, s₁') ∧ f₁.FailsAt s₁' ∨
        f₁.hasNext s₁' = (.ok false, s₁') ∧ f₂.hasNext s₂' = (.ok true, s₂') ∧ f₂.FailsAt s₂')) := by
  obtain ⟨b₁, s₁', hh, hh₁, hs₁', hb₁⟩ := hL.hasNext hs₁
  cases b₁ with
  | true =>
    refine ⟨true, s₁', s₂, by simp [hasNext, hh], by simp [hasNext, hh₁], hs₁', hs₂, ?_⟩
    rcases hb₁ with hb | ⟨-, hf⟩
    · exact .inl (by simp [goesOn, ← hb])
    · exact .inr ⟨rfl, .inl ⟨hh₁, hf⟩⟩
  | false =>
    -- the left input has ended; the right one answers
    have hx : xs₁.head.isSome = false := by
      rcases hb₁ with hb | ⟨hb, -⟩
      · exact hb.symm
      · cases hb
    obtain ⟨b₂, s₂', hr, hr₂, hs₂', hb₂⟩ := hR.hasNext hs₂
    cases b₂ with
    | true =>
      refine ⟨true, s₁', s₂', by simp [hasNext, hh, hr], by simp [hasNext, hh₁, hr₂], hs₁', hs₂', ?_⟩
      rcases hb₂ with hb | ⟨-, hf⟩
      · exact .inl (by simp [goesOn, ← hb])
      · exact .inr ⟨rfl, .inr ⟨hh₁, hr₂, hf⟩⟩
    | false =>
      have hy : xs₂.head.isSome = false := by
        rcases hb₂ with hb | ⟨hb, -⟩
        · exact hb.symm
        · cases hb
      exact ⟨decide (st.index + 1 < st.leftCoeffs.size + st.rightCoeffs.size), s₁', s₂',
        by simp [hasNext, hh, hr], by simp [hasNext, hh₁, hr₂], hs₁', hs₂',
        .inl (by simp [goesOn, hx, hy])⟩

/-- From a state whose coefficients at the index are not known yet, a failure kept by an input
makes the product's next call fail. -/
theorem failsAt_sides {s₁ : σ₁} {s₂ : σ₂} (hl : st.leftCoeffs.size ≤ st.index)
    (hr : st.rightCoeffs.size ≤ st.index)
    (hh : hasNext f₁.onLeft f₂.onRight st (s₁, s₂) = (.ok true, (s₁, s₂)))
    (hf : f₁.hasNext s₁ = (.ok true, s₁) ∧ f₁.FailsAt s₁ ∨
      f₁.hasNext s₁ = (.ok false, s₁) ∧ f₂.hasNext s₂ = (.ok true, s₂) ∧ f₂.FailsAt s₂) :
    (Product.feed f₁.onLeft f₂.onRight).FailsAt (st, s₁, s₂) := by
  rcases hf with ⟨hh₁, e, t, he, ht⟩ | ⟨hh₁, hh₂, e, t, he, ht⟩
  · have hread : readAt f₁.onLeft st.index st.leftCoeffs (s₁, s₂) = (.error (.fail e), (t, s₂)) := by
      simp [readAt_of_pull_error hl (pull_of_fails hh₁ he ht)]
    exact ⟨e, (st, t, s₂), he, by simp [tryNext_left_fails hh hread]⟩
  · have hread : readAt f₁.onLeft st.index st.leftCoeffs (s₁, s₂) = (.ok st.leftCoeffs, (s₁, s₂)) := by
      simp [readAt_of_pull_none hl (show f₁.pull s₁ = (.ok none, s₁) by simp [Feed.pull, hh₁])]
    have hread₂ : readAt f₂.onRight st.index st.rightCoeffs (s₁, s₂) = (.error (.fail e), (s₁, t)) := by
      simp [readAt_of_pull_error hr (pull_of_fails hh₂ he ht)]
    exact ⟨e, (st, s₁, t), he, by simp [tryNext_right_fails hh hread hread₂]⟩

omit [Coefficient α] in
/-- With the next left coefficient kept, the product goes on. -/
theorem goesOn_kept {a : α} (ha : Aligned st xs₁ xs₂) (hx : xs₁.head = some a)
    (ys : Stream'.Seq α) : goesOn { st with leftCoeffs := st.leftCoeffs.push a } ys xs₂ = true := by
  have hsize := ha.left_size hx
  rcases ha.2.2.2 with hr | hr
  · simp only [goesOn, Array.size_push, hsize, Bool.or_eq_true, decide_eq_true_eq]
    omega
  · simp [goesOn, hr]

/-- From the same state, a call of the product over failing inputs fails keeping at most the left
coefficient it read, or hands out what the product over failure-free inputs does. -/
theorem tryNext_same (hL : f₁.Transient R₁) (hR : f₂.Transient R₂) {s₁ : σ₁} {s₂ : σ₂}
    {k₁ k₂ k : ℕ} (ha : Aligned st xs₁ xs₂) (hk : k₁ + k₂ ≤ k) (hs₁ : R₁ s₁ xs₁ k₁)
    (hs₂ : R₂ s₂ xs₂ k₂) :
    Fails (Product.feed f₁.onLeft f₂.onRight).tryNext (Tracks R₁ R₂) (st, s₁, s₂) (st, xs₁, xs₂) k ∨
      ∃ p', (Product.feed f₁.onLeft f₂.onRight).tryNext (st, s₁, s₂) =
          (((Product.feed ofSeq.onLeft ofSeq.onRight).tryNext (st, xs₁, xs₂)).1, p') ∧
        Tracks R₁ R₂ p' ((Product.feed ofSeq.onLeft ofSeq.onRight).tryNext (st, xs₁, xs₂)).2 k := by
  obtain ⟨b, s₁', s₂', hh, -, hs₁', hs₂', hb⟩ := hasNext_sides st hL hR hs₁ hs₂
  cases b with
  | false =>
    -- both inputs have ended, and so has the product
    have hb₀ : goesOn st xs₁ xs₂ = false := by
      rcases hb with hb | ⟨hb, -⟩
      · exact hb.symm
      · cases hb
    have hend := hasNext_ofSeq st xs₁ xs₂
    rw [hb₀] at hend
    refine .inr ⟨(st, s₁', s₂'), by simp [tryNext_ended hh, tryNext_ended hend], ?_⟩
    rw [feed_tryNext, tryNext_ended hend]
    exact ⟨ha, k₁, k₂, hk, hs₂', .inl ⟨rfl, hs₁'⟩⟩
  | true =>
    rcases readAt_follows hL hs₁' st.index st.leftCoeffs with
      ⟨e, t₁, k₁', he, hk₁, hl, ht₁⟩ | ⟨t₁, hl, ht₁⟩
    · -- the left read fails, and nothing is kept
      have hl' : readAt f₁.onLeft st.index st.leftCoeffs (s₁', s₂') =
          (.error (.fail e), (t₁, s₂')) := by simp [hl]
      exact .inl ⟨e, (st, t₁, s₂'), k₁' + k₂, he, by omega, by simp [tryNext_left_fails hh hl'],
        ha, k₁', k₂, le_rfl, hs₂', .inl ⟨rfl, ht₁⟩⟩
    · rw [readAt_ofSeq] at hl ht₁
      have hl' : readAt f₁.onLeft st.index st.leftCoeffs (s₁', s₂') =
          (.ok (readSeq st.index st.leftCoeffs xs₁).1, (t₁, s₂')) := by simp [hl]
      rcases readAt_follows hR hs₂' st.index st.rightCoeffs with
        ⟨e, t₂, k₂', he, hk₂, hr, ht₂⟩ | ⟨t₂, hr, ht₂⟩
      · -- the right read fails, and the left coefficient read is kept
        have hr' : readAt f₂.onRight st.index st.rightCoeffs (t₁, s₂') =
            (.error (.fail e), (t₁, t₂)) := by simp [hr]
        refine .inl ⟨e, ({ st with leftCoeffs := (readSeq st.index st.leftCoeffs xs₁).1 }, t₁, t₂),
          k₁ + k₂', he, by omega, by simp [tryNext_right_fails hh hl' hr'], ha, k₁, k₂', le_rfl, ht₂, ?_⟩
        cases hx : xs₁.head with
        | none =>
          have hnil : xs₁ = .nil := Stream'.Seq.head_eq_none_iff.1 hx
          subst hnil
          exact .inl ⟨by simp, by simpa using ht₁⟩
        | some a =>
          exact .inr ⟨a, rfl, by simp [readSeq_of_head ha.1 hx],
            by simpa [readSeq_of_head ha.1 hx] using ht₁⟩
      · rw [readAt_ofSeq] at hr ht₂
        have hr' : readAt f₂.onRight st.index st.rightCoeffs (t₁, s₂') =
            (.ok (readSeq st.index st.rightCoeffs xs₂).1, (t₁, t₂)) := by simp [hr]
        -- both reads went through, so the look ahead answered for the coefficients
        have hgo : goesOn st xs₁ xs₂ = true := by
          rcases hb with hb | ⟨-, ⟨hh₁, e, t, he, ht⟩ | ⟨-, hh₂, e, t, he, ht⟩⟩
          · exact hb.symm
          · rw [readAt_of_pull_error ha.1 (pull_of_fails hh₁ he ht)] at hl
            cases hl
          · rw [readAt_of_pull_error ha.2.2.1 (pull_of_fails hh₂ he ht)] at hr
            cases hr
        refine .inr ⟨_, Prod.ext (by simp [tryNext_reads hh hl' hr', tryNext_ofSeq hgo]) rfl, ?_⟩
        rw [feed_tryNext, feed_tryNext, tryNext_reads hh hl' hr', tryNext_ofSeq hgo]
        exact ⟨ha.read, k₁, k₂, hk, ht₂, .inl ⟨rfl, ht₁⟩⟩

/-- With the next left coefficient kept, a call of the product over failing inputs fails keeping
it, or reads the right coefficient and hands out what the product over failure-free inputs does. -/
theorem tryNext_kept (hL : f₁.Transient R₁) (hR : f₂.Transient R₂) {s₁ : σ₁} {s₂ : σ₂}
    {k₁ k₂ k : ℕ} {a : α} (ha : Aligned st xs₁ xs₂) (hx : xs₁.head = some a) (hk : k₁ + k₂ ≤ k)
    (hs₁ : R₁ s₁ xs₁.tail k₁) (hs₂ : R₂ s₂ xs₂ k₂) :
    Fails (Product.feed f₁.onLeft f₂.onRight).tryNext (Tracks R₁ R₂)
        ({ st with leftCoeffs := st.leftCoeffs.push a }, s₁, s₂) (st, xs₁, xs₂) k ∨
      ∃ p', (Product.feed f₁.onLeft f₂.onRight).tryNext
            ({ st with leftCoeffs := st.leftCoeffs.push a }, s₁, s₂) =
          (((Product.feed ofSeq.onLeft ofSeq.onRight).tryNext (st, xs₁, xs₂)).1, p') ∧
        Tracks R₁ R₂ p' ((Product.feed ofSeq.onLeft ofSeq.onRight).tryNext (st, xs₁, xs₂)).2 k := by
  obtain ⟨b, s₁', s₂', hh, -, hs₁', hs₂', hb⟩ :=
    hasNext_sides { st with leftCoeffs := st.leftCoeffs.push a } hL hR hs₁ hs₂
  obtain rfl : b = true := by
    rcases hb with rfl | ⟨rfl, -⟩
    · exact goesOn_kept ha hx _
    · rfl
  have hsize := ha.left_size hx
  -- the kept coefficient is not read again
  have hl : readAt f₁.onLeft st.index (st.leftCoeffs.push a) (s₁', s₂') =
      (.ok (st.leftCoeffs.push a), (s₁', s₂')) := readAt_skip (by simp [hsize]) _ _
  have hgo : goesOn st xs₁ xs₂ = true := by simp [goesOn, hx]
  rcases readAt_follows hR hs₂' st.index st.rightCoeffs with
    ⟨e, t₂, k₂', he, hk₂, hr, ht₂⟩ | ⟨t₂, hr, ht₂⟩
  · have hr' : readAt f₂.onRight st.index st.rightCoeffs (s₁', s₂') =
        (.error (.fail e), (s₁', t₂)) := by simp [hr]
    exact .inl ⟨e, ({ st with leftCoeffs := st.leftCoeffs.push a }, s₁', t₂), k₁ + k₂', he,
      by omega, by simp [tryNext_right_fails hh hl hr'], ha, k₁, k₂', le_rfl, ht₂,
      .inr ⟨a, hx, rfl, hs₁'⟩⟩
  · rw [readAt_ofSeq] at hr ht₂
    have hr' : readAt f₂.onRight st.index st.rightCoeffs (s₁', s₂') =
        (.ok (readSeq st.index st.rightCoeffs xs₂).1, (s₁', t₂)) := by simp [hr]
    refine .inr ⟨_, Prod.ext (by simp [tryNext_reads hh hl hr', tryNext_ofSeq hgo,
      readSeq_of_head ha.1 hx]) rfl, ?_⟩
    rw [feed_tryNext, feed_tryNext, tryNext_reads hh hl hr', tryNext_ofSeq hgo]
    refine ⟨ha.read, k₁, k₂, hk, ht₂, .inl ⟨?_, by simpa [readSeq_of_head ha.1 hx] using hs₁'⟩⟩
    simp [readSeq_of_head ha.1 hx]

/-- The product over failing inputs follows the product over failure-free ones. -/
theorem follows (hL : f₁.Transient R₁) (hR : f₂.Transient R₂) :
    (Product.feed f₁.onLeft f₂.onRight).Follows (Product.feed ofSeq.onLeft ofSeq.onRight)
      (Tracks R₁ R₂) where
  hasNext := by
    rintro ⟨st, s₁, s₂⟩ ⟨st₀, xs₁, xs₂⟩ k ⟨ha, k₁, k₂, hk, hs₂, ⟨rfl, hs₁⟩ | ⟨a, hx, rfl, hs₁⟩⟩
    · obtain ⟨b, s₁', s₂', hh, hh', hs₁', hs₂', hb | ⟨rfl, hf⟩⟩ :=
        hasNext_sides st hL hR hs₁ hs₂
      · exact ⟨b, (st, s₁', s₂'), by simp [hh], by simp [hh'],
          .inl ⟨(st, xs₁, xs₂), by simp [hasNext_ofSeq, hb], ha, k₁, k₂, hk, hs₂', .inl ⟨rfl, hs₁'⟩⟩⟩
      · exact ⟨true, (st, s₁', s₂'), by simp [hh], by simp [hh'],
          .inr ⟨rfl, failsAt_sides ha.1 ha.2.2.1 hh' hf, ha, k₁, k₂, hk, hs₂', .inl ⟨rfl, hs₁'⟩⟩⟩
    · -- the kept coefficient answers for the failing product; the failure-free one reads it
      obtain ⟨b, s₁', s₂', hh, hh', hs₁', hs₂', hb⟩ :=
        hasNext_sides { st₀ with leftCoeffs := st₀.leftCoeffs.push a } hL hR hs₁ hs₂
      obtain rfl : b = true := by
        rcases hb with rfl | ⟨rfl, -⟩
        · exact goesOn_kept ha hx _
        · rfl
      exact ⟨true, (_, s₁', s₂'), by simp [hh], by simp [hh'],
        .inl ⟨(st₀, xs₁, xs₂), by simp [hasNext_ofSeq, goesOn, hx], ha, k₁, k₂, hk, hs₂',
          .inr ⟨a, hx, rfl, hs₁'⟩⟩⟩
  tryNext := by
    rintro ⟨st, s₁, s₂⟩ ⟨st₀, xs₁, xs₂⟩ k ⟨ha, k₁, k₂, hk, hs₂, ⟨rfl, hs₁⟩ | ⟨a, hx, rfl, hs₁⟩⟩
    · exact tryNext_same hL hR ha hk hs₁ hs₂
    · exact tryNext_kept hL hR ha hx hk hs₁ hs₂

end Product

/-! ## Composition -/

namespace Composition

section Steps

variable {outer inner : Feed σ α} {st : Composition α} {s s₁ s₂ s₃ : σ}

@[simp] theorem feed_hasNext (outer inner : Feed σ α) (st : Composition α) (s : σ) :
    (Composition.feed outer inner).hasNext (st, s) =
      ((hasNext outer inner st s).1, st, (hasNext outer inner st s).2) :=
  rfl

@[simp] theorem feed_tryNext (outer inner : Feed σ α) (st : Composition α) (s : σ) :
    (Composition.feed outer inner).tryNext (st, s) =
      ((tryNext outer inner st s).1, (tryNext outer inner st s).2.1,
        (tryNext outer inner st s).2.2) :=
  rfl

theorem tryNext_ended (hh : hasNext outer inner st s = (.ok false, s₁)) :
    tryNext outer inner st s = (Outcome.exhausted, st, s₁) := by
  simp [tryNext, hh]

theorem tryNext_inner_fails {h : Halt} (hh : hasNext outer inner st s = (.ok true, s₁))
    (hi : Product.readAt inner st.index st.innerCoeffs s₁ = (.error h, s₂)) :
    tryNext outer inner st s = (.error h, st, s₂) := by
  simp [tryNext, hh, hi]

/-- A failed outer read keeps the inner coefficient read. -/
theorem tryNext_outer_fails {h : Halt} {ic : Array α}
    (hh : hasNext outer inner st s = (.ok true, s₁))
    (hi : Product.readAt inner st.index st.innerCoeffs s₁ = (.ok ic, s₂))
    (ho : Product.readAt outer st.index st.outerCoeffs s₂ = (.error h, s₃)) :
    tryNext outer inner st s = (.error h, { st with innerCoeffs := ic }, s₃) := by
  simp [tryNext, hh, hi, ho]

/-- What the composition hands out once it knows the inner coefficients `ic` and the outer ones
`oc` at its index, and what it then holds. -/
def emit (st : Composition α) (ic oc : Array α) : α × Composition α :=
  let st' := extendPowers { st with innerCoeffs := ic, outerCoeffs := oc } st.index
  (Coefficient.sum ((st'.outerCoeffs.toList.zip st'.powers.toList).map fun (a, p) =>
      a * p.getD st.index Coefficient.zero),
    { st' with index := st.index + 1 })

theorem tryNext_reads {ic oc : Array α} (hh : hasNext outer inner st s = (.ok true, s₁))
    (hi : Product.readAt inner st.index st.innerCoeffs s₁ = (.ok ic, s₂))
    (ho : Product.readAt outer st.index st.outerCoeffs s₂ = (.ok oc, s₃)) :
    tryNext outer inner st s = (.ok (emit st ic oc).1, (emit st ic oc).2, s₃) := by
  simp [tryNext, emit, hh, hi, ho]

end Steps

section Emit

variable {st : Composition α} {ic oc : Array α}

@[simp] theorem emit_innerCoeffs : (emit st ic oc).2.innerCoeffs = ic := by
  simp [emit, extendPowers]

@[simp] theorem emit_index : (emit st ic oc).2.index = st.index + 1 := by
  simp [emit]

/-- What the composition held of the inner coefficients does not matter once it knows them. -/
@[simp] theorem emit_with_inner (x : Array α) : emit { st with innerCoeffs := x } ic oc = emit st ic oc :=
  rfl

end Emit

variable {σ₁ σ₂ : Type} {f₁ : Feed σ₁ α} {f₂ : Feed σ₂ α} {R₁ : σ₁ → Stream'.Seq α → ℕ → Prop}
  {R₂ : σ₂ → Stream'.Seq α → ℕ → Prop} {st : Composition α} {xs₁ xs₂ : Stream'.Seq α}

/-- What the composition over failure-free inputs answers when it looks ahead: a coefficient goes
on on one side, or the composed polynomial has coefficients left. -/
def goesOn (st : Composition α) (xs₁ xs₂ : Stream'.Seq α) : Bool :=
  xs₁.head.isSome || xs₂.head.isSome || decide (st.index ≤ st.degree)

omit [Coefficient α] in
theorem hasNext_ofSeq (st) (xs₁ xs₂ : Stream'.Seq α) :
    hasNext ofSeq.onLeft ofSeq.onRight st (xs₁, xs₂) = (.ok (goesOn st xs₁ xs₂), (xs₁, xs₂)) := by
  cases h₁ : xs₁.head.isSome <;> cases h₂ : xs₂.head.isSome <;> simp [hasNext, goesOn, h₁, h₂]

/-- The composition over failure-free inputs reads inner coefficient `index`, then the outer one,
and hands out the coefficient of the composition of what it knows. -/
theorem tryNext_ofSeq (hb : goesOn st xs₁ xs₂ = true) :
    tryNext ofSeq.onLeft ofSeq.onRight st (xs₁, xs₂) =
      (.ok (emit st (Product.readSeq st.index st.innerCoeffs xs₂).1
          (Product.readSeq st.index st.outerCoeffs xs₁).1).1,
        (emit st (Product.readSeq st.index st.innerCoeffs xs₂).1
          (Product.readSeq st.index st.outerCoeffs xs₁).1).2,
        ((Product.readSeq st.index st.outerCoeffs xs₁).2,
          (Product.readSeq st.index st.innerCoeffs xs₂).2)) :=
  tryNext_reads (by rw [hasNext_ofSeq, hb])
    (show Product.readAt ofSeq.onRight _ _ (xs₁, xs₂) =
      (.ok (Product.readSeq st.index st.innerCoeffs xs₂).1,
        (xs₁, (Product.readSeq st.index st.innerCoeffs xs₂).2)) by simp)
    (by simp)

/-- Over failure-free inputs the composition never fails. -/
theorem steady :
    (Composition.feed (ofSeq (α := α)).onLeft ofSeq.onRight).Steady fun _ => True := by
  refine .of_still (fun {p} _ => ?_) (fun {p} _ hh => ?_) (fun {p} _ hh => ?_) <;>
    obtain ⟨st, xs₁, xs₂⟩ := p
  · exact ⟨_, by rw [feed_hasNext, hasNext_ofSeq]⟩
  · rw [feed_hasNext, hasNext_ofSeq] at hh
    have hb : goesOn st xs₁ xs₂ = true := by simpa using hh
    exact ⟨_, _, by rw [feed_tryNext, tryNext_ofSeq hb], trivial⟩
  · have hend := hasNext_ofSeq st xs₁ xs₂
    rw [feed_hasNext, hend] at hh
    have hb : goesOn st xs₁ xs₂ = false := by simpa using hh
    rw [hb] at hend
    simp [tryNext_ended hend]

/-- The composition over failure-free inputs reads each inner coefficient at its own index: at
most one is known at the start, and fewer than the index only once the inner input has ended. -/
def Aligned (st : Composition α) (xs₂ : Stream'.Seq α) : Prop :=
  st.innerCoeffs.size ≤ max st.index 1 ∧ (st.innerCoeffs.size < st.index → xs₂ = .nil)

omit [Coefficient α] in
/-- An inner coefficient still to come and not known is the one at the index. -/
theorem Aligned.inner_size {b : α} (ha : Aligned st xs₂) (hx : xs₂.head = some b)
    (hn : st.innerCoeffs.size ≤ st.index) : st.innerCoeffs.size = st.index := by
  by_contra hne
  have hnil := ha.2 (lt_of_le_of_ne hn hne)
  simp [hnil] at hx

/-- Reading the inner input at the index keeps the composition aligned at the next index. -/
theorem Aligned.read (ha : Aligned st xs₂) (oc : Array α) :
    Aligned (emit st (Product.readSeq st.index st.innerCoeffs xs₂).1 oc).2
      (Product.readSeq st.index st.innerCoeffs xs₂).2 := by
  simp only [Aligned, emit_innerCoeffs, emit_index]
  by_cases hn : st.innerCoeffs.size ≤ st.index
  · cases hx : xs₂.head with
    | none =>
      rw [Stream'.Seq.head_eq_none_iff.1 hx, Product.readSeq_nil]
      exact ⟨by dsimp only; omega, fun _ => rfl⟩
    | some b =>
      -- the coefficient read is the one at the index
      have hsize := ha.inner_size hx hn
      rw [Product.readSeq_of_head hn hx, Array.size_push]
      exact ⟨by omega, by omega⟩
  · -- only at the start is a coefficient known ahead, and it is not read again
    have hle := ha.1
    simp only [Product.readSeq, hn, if_false]
    exact ⟨by omega, by omega⟩

/-- The composition over failing inputs and over failure-free ones. The failure-free composition
is aligned, and the outer inputs hold the same coefficients. The two compositions are in the
same state with the inner inputs holding the same coefficients, or the failing one has read the
next inner coefficient, keeps it, and waits for an outer coefficient that goes on. -/
def Tracks (R₁ : σ₁ → Stream'.Seq α → ℕ → Prop) (R₂ : σ₂ → Stream'.Seq α → ℕ → Prop) :
    Composition α × σ₁ × σ₂ → Composition α × Stream'.Seq α × Stream'.Seq α → ℕ → Prop
  | (st, s₁, s₂), (st₀, xs₁, xs₂), k =>
    Aligned st₀ xs₂ ∧ ∃ k₁ k₂, k₁ + k₂ ≤ k ∧ R₁ s₁ xs₁ k₁ ∧
      ((st = st₀ ∧ R₂ s₂ xs₂ k₂) ∨
        ∃ b, xs₂.head = some b ∧ st₀.innerCoeffs.size ≤ st₀.index ∧
          st = { st₀ with innerCoeffs := st₀.innerCoeffs.push b } ∧ R₂ s₂ xs₂.tail k₂ ∧
          xs₁.head.isSome = true)

omit [Coefficient α] in
/-- A look ahead of the composition over failing inputs, the outer one answering whether its
sequence goes on: the answer over failure-free inputs, or `true` for a failure kept by the inner
input once the outer has ended. -/
theorem hasNext_sides (st : Composition α) (hL : f₁.Transient R₁) (hT : f₁.Truthful R₁)
    (hR : f₂.Transient R₂)
    {s₁ : σ₁} {s₂ : σ₂} {k₁ k₂ : ℕ} (hs₁ : R₁ s₁ xs₁ k₁) (hs₂ : R₂ s₂ xs₂ k₂) :
    ∃ b s₁' s₂', hasNext f₁.onLeft f₂.onRight st (s₁, s₂) = (.ok b, (s₁', s₂')) ∧
      hasNext f₁.onLeft f₂.onRight st (s₁', s₂') = (.ok b, (s₁', s₂')) ∧
      R₁ s₁' xs₁ k₁ ∧ R₂ s₂' xs₂ k₂ ∧
      (b = goesOn st xs₁ xs₂ ∨ b = true ∧ f₁.hasNext s₁' = (.ok false, s₁') ∧
        f₂.hasNext s₂' = (.ok true, s₂') ∧ f₂.FailsAt s₂') := by
  obtain ⟨b₁, s₁', hh, hh₁, hs₁', -⟩ := hL.hasNext hs₁
  have hb₁ : b₁ = xs₁.head.isSome := by
    have ht := hT hs₁
    rw [hh, Except.ok.injEq] at ht
    exact ht
  subst hb₁
  cases hx : xs₁.head.isSome with
  | true =>
    rw [hx] at hh hh₁
    exact ⟨true, s₁', s₂, by simp [hasNext, hh], by simp [hasNext, hh₁], hs₁', hs₂,
      .inl (by simp [goesOn, hx])⟩
  | false =>
    rw [hx] at hh hh₁
    obtain ⟨b₂, s₂', hr, hr₂, hs₂', hb₂⟩ := hR.hasNext hs₂
    cases b₂ with
    | true =>
      refine ⟨true, s₁', s₂', by simp [hasNext, hh, hr], by simp [hasNext, hh₁, hr₂], hs₁', hs₂', ?_⟩
      rcases hb₂ with hb | ⟨-, hf⟩
      · exact .inl (by simp [goesOn, ← hb])
      · exact .inr ⟨rfl, hh₁, hr₂, hf⟩
    | false =>
      have hy : xs₂.head.isSome = false := by
        rcases hb₂ with hb | ⟨hb, -⟩
        · exact hb.symm
        · cases hb
      exact ⟨decide (st.index ≤ st.degree), s₁', s₂', by simp [hasNext, hh, hr],
        by simp [hasNext, hh₁, hr₂], hs₁', hs₂', .inl (by simp [goesOn, hx, hy])⟩

omit [Coefficient α] in
/-- At its first index the composition goes on. -/
theorem goesOn_of_index_zero (h0 : st.index = 0) : goesOn st xs₁ xs₂ = true := by
  simp [goesOn, h0]

/-- Past the first index, a failure kept by the inner input makes the composition's next call
fail. -/
theorem failsAt_sides {s₁ : σ₁} {s₂ : σ₂} (hn : st.innerCoeffs.size ≤ st.index)
    (hh : hasNext f₁.onLeft f₂.onRight st (s₁, s₂) = (.ok true, (s₁, s₂)))
    (hh₂ : f₂.hasNext s₂ = (.ok true, s₂)) (hf : f₂.FailsAt s₂) :
    (Composition.feed f₁.onLeft f₂.onRight).FailsAt (st, s₁, s₂) := by
  obtain ⟨e, t, he, ht⟩ := hf
  have hread : Product.readAt f₂.onRight st.index st.innerCoeffs (s₁, s₂) =
      (.error (.fail e), (s₁, t)) := by
    simp [Product.readAt_of_pull_error hn (pull_of_fails hh₂ he ht)]
  exact ⟨e, (st, s₁, t), he, by simp [tryNext_inner_fails hh hread]⟩

omit [Coefficient α] in
/-- A read of an input that answers its look ahead truthfully fails only while its sequence goes
on. -/
theorem head_of_readAt_error {f : Feed σ α} {R : σ → Stream'.Seq α → ℕ → Prop} (hT : f.Truthful R)
    {s s' : σ} {xs : Stream'.Seq α} {k n : ℕ} {known : Array α} {h : Halt} (hs : R s xs k)
    (hr : Product.readAt f n known s = (.error h, s')) : xs.head.isSome = true := by
  by_contra hx
  rw [Bool.not_eq_true] at hx
  have hh : (f.hasNext s).1 = .ok false := by rw [hT hs, hx]
  have hp : f.pull s = (.ok none, (f.hasNext s).2) := by
    rcases h' : f.hasNext s with ⟨r, t⟩
    rw [h'] at hh
    subst hh
    simp [Feed.pull, h']
  by_cases hn : known.size ≤ n
  · rw [Product.readAt_of_pull_none hn hp] at hr
    cases hr
  · rw [Product.readAt_skip (Nat.lt_of_not_le hn)] at hr
    cases hr

/-- From the same state, a call of the composition over failing inputs fails keeping at most the
inner coefficient it read, or hands out what the composition over failure-free inputs does. -/
theorem tryNext_same (hL : f₁.Transient R₁) (hT : f₁.Truthful R₁) (hR : f₂.Transient R₂)
    {s₁ : σ₁} {s₂ : σ₂} {k₁ k₂ k : ℕ} (ha : Aligned st xs₂) (hk : k₁ + k₂ ≤ k)
    (hs₁ : R₁ s₁ xs₁ k₁) (hs₂ : R₂ s₂ xs₂ k₂) :
    Fails (Composition.feed f₁.onLeft f₂.onRight).tryNext (Tracks R₁ R₂) (st, s₁, s₂)
        (st, xs₁, xs₂) k ∨
      ∃ p', (Composition.feed f₁.onLeft f₂.onRight).tryNext (st, s₁, s₂) =
          (((Composition.feed ofSeq.onLeft ofSeq.onRight).tryNext (st, xs₁, xs₂)).1, p') ∧
        Tracks R₁ R₂ p' ((Composition.feed ofSeq.onLeft ofSeq.onRight).tryNext (st, xs₁, xs₂)).2
          k := by
  obtain ⟨b, s₁', s₂', hh, -, hs₁', hs₂', hb⟩ := hasNext_sides st hL hT hR hs₁ hs₂
  cases b with
  | false =>
    -- both inputs have ended, and so has the composition
    have hb₀ : goesOn st xs₁ xs₂ = false := by
      rcases hb with hb | ⟨hb, -⟩
      · exact hb.symm
      · cases hb
    have hend := hasNext_ofSeq st xs₁ xs₂
    rw [hb₀] at hend
    refine .inr ⟨(st, s₁', s₂'), by simp [tryNext_ended hh, tryNext_ended hend], ?_⟩
    rw [feed_tryNext, tryNext_ended hend]
    exact ⟨ha, k₁, k₂, hk, hs₁', .inl ⟨rfl, hs₂'⟩⟩
  | true =>
    rcases Product.readAt_follows hR hs₂' st.index st.innerCoeffs with
      ⟨e, t₂, k₂', he, hk₂, hi, ht₂⟩ | ⟨t₂, hi, ht₂⟩
    · -- the inner read fails, and nothing is kept
      have hi' : Product.readAt f₂.onRight st.index st.innerCoeffs (s₁', s₂') =
          (.error (.fail e), (s₁', t₂)) := by simp [hi]
      exact .inl ⟨e, (st, s₁', t₂), k₁ + k₂', he, by omega, by simp [tryNext_inner_fails hh hi'],
        ha, k₁, k₂', le_rfl, hs₁', .inl ⟨rfl, ht₂⟩⟩
    · rw [Product.readAt_ofSeq] at hi ht₂
      have hi' : Product.readAt f₂.onRight st.index st.innerCoeffs (s₁', s₂') =
          (.ok (Product.readSeq st.index st.innerCoeffs xs₂).1, (s₁', t₂)) := by simp [hi]
      rcases Product.readAt_follows hL hs₁' st.index st.outerCoeffs with
        ⟨e, t₁, k₁', he, hk₁, ho, ht₁⟩ | ⟨t₁, ho, ht₁⟩
      · -- the outer read fails, and the inner coefficient read is kept
        have ho' : Product.readAt f₁.onLeft st.index st.outerCoeffs (s₁', t₂) =
            (.error (.fail e), (t₁, t₂)) := by simp [ho]
        refine .inl ⟨e, ({ st with innerCoeffs := (Product.readSeq st.index st.innerCoeffs xs₂).1 },
          t₁, t₂), k₁' + k₂, he, by omega, by simp [tryNext_outer_fails hh hi' ho'], ha, k₁', k₂,
          le_rfl, ht₁, ?_⟩
        by_cases hn : st.innerCoeffs.size ≤ st.index
        · cases hx : xs₂.head with
          | none =>
            have hnil : xs₂ = .nil := Stream'.Seq.head_eq_none_iff.1 hx
            subst hnil
            exact .inl ⟨by simp, by simpa using ht₂⟩
          | some b =>
            exact .inr ⟨b, rfl, hn, by simp [Product.readSeq_of_head hn hx],
              by simpa [Product.readSeq_of_head hn hx] using ht₂, head_of_readAt_error (R := R₁) hT hs₁' ho⟩
        · -- the inner coefficient at the index was known, and nothing was read
          exact .inl ⟨by simp [Product.readSeq, hn], by simpa [Product.readSeq, hn] using ht₂⟩
      · rw [Product.readAt_ofSeq] at ho ht₁
        have ho' : Product.readAt f₁.onLeft st.index st.outerCoeffs (s₁', t₂) =
            (.ok (Product.readSeq st.index st.outerCoeffs xs₁).1, (t₁, t₂)) := by simp [ho]
        -- both reads went through, so the look ahead answered for the coefficients
        have hgo : goesOn st xs₁ xs₂ = true := by
          rcases hb with hb | ⟨-, -, hh₂, e, t, he, ht⟩
          · exact hb.symm
          · by_cases h0 : st.index = 0
            · exact goesOn_of_index_zero h0
            · have hn : st.innerCoeffs.size ≤ st.index := by
                have := ha.1
                omega
              rw [Product.readAt_of_pull_error hn (pull_of_fails hh₂ he ht)] at hi
              cases hi
        refine .inr ⟨_, Prod.ext (by simp [tryNext_reads hh hi' ho', tryNext_ofSeq hgo]) rfl, ?_⟩
        rw [feed_tryNext, feed_tryNext, tryNext_reads hh hi' ho', tryNext_ofSeq hgo]
        exact ⟨ha.read _, k₁, k₂, hk, ht₁, .inl ⟨rfl, ht₂⟩⟩

/-- With the next inner coefficient kept, a call of the composition over failing inputs fails
keeping it, or reads the outer coefficient and hands out what the composition over failure-free
inputs does. -/
theorem tryNext_kept (hL : f₁.Transient R₁) (hT : f₁.Truthful R₁) (hR : f₂.Transient R₂)
    {s₁ : σ₁} {s₂ : σ₂} {k₁ k₂ k : ℕ} {b : α} (ha : Aligned st xs₂) (hx : xs₂.head = some b)
    (hn : st.innerCoeffs.size ≤ st.index) (hk : k₁ + k₂ ≤ k) (hs₁ : R₁ s₁ xs₁ k₁)
    (hs₂ : R₂ s₂ xs₂.tail k₂) (hx₁ : xs₁.head.isSome = true) :
    Fails (Composition.feed f₁.onLeft f₂.onRight).tryNext (Tracks R₁ R₂)
        ({ st with innerCoeffs := st.innerCoeffs.push b }, s₁, s₂) (st, xs₁, xs₂) k ∨
      ∃ p', (Composition.feed f₁.onLeft f₂.onRight).tryNext
            ({ st with innerCoeffs := st.innerCoeffs.push b }, s₁, s₂) =
          (((Composition.feed ofSeq.onLeft ofSeq.onRight).tryNext (st, xs₁, xs₂)).1, p') ∧
        Tracks R₁ R₂ p' ((Composition.feed ofSeq.onLeft ofSeq.onRight).tryNext (st, xs₁, xs₂)).2
          k := by
  obtain ⟨c, s₁', s₂', hh, -, hs₁', hs₂', hc⟩ :=
    hasNext_sides { st with innerCoeffs := st.innerCoeffs.push b } hL hT hR hs₁ hs₂
  obtain rfl : c = true := by
    rcases hc with rfl | ⟨rfl, -⟩
    · simp [goesOn, hx₁]
    · rfl
  have hsize := ha.inner_size hx hn
  -- the kept coefficient is not read again
  have hi : Product.readAt f₂.onRight st.index (st.innerCoeffs.push b) (s₁', s₂') =
      (.ok (st.innerCoeffs.push b), (s₁', s₂')) := Product.readAt_skip (by simp [hsize]) _ _
  have hgo : goesOn st xs₁ xs₂ = true := by simp [goesOn, hx₁]
  rcases Product.readAt_follows hL hs₁' st.index st.outerCoeffs with
    ⟨e, t₁, k₁', he, hk₁, ho, ht₁⟩ | ⟨t₁, ho, ht₁⟩
  · have ho' : Product.readAt f₁.onLeft st.index st.outerCoeffs (s₁', s₂') =
        (.error (.fail e), (t₁, s₂')) := by simp [ho]
    exact .inl ⟨e, ({ st with innerCoeffs := st.innerCoeffs.push b }, t₁, s₂'), k₁' + k₂, he,
      by omega, by simp [tryNext_outer_fails hh hi ho'], ha, k₁', k₂, le_rfl, ht₁,
      .inr ⟨b, hx, hn, rfl, hs₂', hx₁⟩⟩
  · rw [Product.readAt_ofSeq] at ho ht₁
    have ho' : Product.readAt f₁.onLeft st.index st.outerCoeffs (s₁', s₂') =
        (.ok (Product.readSeq st.index st.outerCoeffs xs₁).1, (t₁, s₂')) := by simp [ho]
    refine .inr ⟨_, Prod.ext (by simp [tryNext_reads hh hi ho', tryNext_ofSeq hgo,
      Product.readSeq_of_head hn hx]) rfl, ?_⟩
    rw [feed_tryNext, feed_tryNext, tryNext_reads hh hi ho', tryNext_ofSeq hgo]
    refine ⟨ha.read _, k₁, k₂, hk, ht₁,
      .inl ⟨?_, by simpa [Product.readSeq_of_head hn hx] using hs₂'⟩⟩
    simp [Product.readSeq_of_head hn hx]

/-- The composition over failing inputs follows the composition over failure-free ones when the
outer input answers whether its sequence goes on. -/
theorem follows (hL : f₁.Transient R₁) (hT : f₁.Truthful R₁) (hR : f₂.Transient R₂) :
    (Composition.feed f₁.onLeft f₂.onRight).Follows
      (Composition.feed ofSeq.onLeft ofSeq.onRight) (Tracks R₁ R₂) where
  hasNext := by
    rintro ⟨st, s₁, s₂⟩ ⟨st₀, xs₁, xs₂⟩ k
      ⟨ha, k₁, k₂, hk, hs₁, ⟨rfl, hs₂⟩ | ⟨b, hx, hn, rfl, hs₂, hx₁⟩⟩
    · obtain ⟨c, s₁', s₂', hh, hh', hs₁', hs₂', hc | ⟨rfl, -, hh₂, hf⟩⟩ :=
        hasNext_sides st hL hT hR hs₁ hs₂
      · exact ⟨c, (st, s₁', s₂'), by simp [hh], by simp [hh'],
          .inl ⟨(st, xs₁, xs₂), by simp [hasNext_ofSeq, hc], ha, k₁, k₂, hk, hs₁', .inl ⟨rfl, hs₂'⟩⟩⟩
      · by_cases h0 : st.index = 0
        · -- at its first index the composition goes on anyway
          exact ⟨true, (st, s₁', s₂'), by simp [hh], by simp [hh'],
            .inl ⟨(st, xs₁, xs₂), by simp [hasNext_ofSeq, goesOn_of_index_zero h0], ha, k₁, k₂, hk,
              hs₁', .inl ⟨rfl, hs₂'⟩⟩⟩
        · have hn : st.innerCoeffs.size ≤ st.index := by
            have := ha.1
            omega
          exact ⟨true, (st, s₁', s₂'), by simp [hh], by simp [hh'],
            .inr ⟨rfl, failsAt_sides hn hh' hh₂ hf, ha, k₁, k₂, hk, hs₁', .inl ⟨rfl, hs₂'⟩⟩⟩
    · -- the outer input goes on, and answers so for both compositions
      obtain ⟨c, s₁', s₂', hh, hh', hs₁', hs₂', hc⟩ :=
        hasNext_sides { st₀ with innerCoeffs := st₀.innerCoeffs.push b } hL hT hR hs₁ hs₂
      obtain rfl : c = true := by
        rcases hc with rfl | ⟨rfl, -⟩
        · simp [goesOn, hx₁]
        · rfl
      exact ⟨true, (_, s₁', s₂'), by simp [hh], by simp [hh'],
        .inl ⟨(st₀, xs₁, xs₂), by simp [hasNext_ofSeq, goesOn, hx₁], ha, k₁, k₂, hk, hs₁',
          .inr ⟨b, hx, hn, rfl, hs₂', hx₁⟩⟩⟩
  tryNext := by
    rintro ⟨st, s₁, s₂⟩ ⟨st₀, xs₁, xs₂⟩ k
      ⟨ha, k₁, k₂, hk, hs₁, ⟨rfl, hs₂⟩ | ⟨b, hx, hn, rfl, hs₂, hx₁⟩⟩
    · exact tryNext_same hL hT hR ha hk hs₁ hs₂
    · exact tryNext_kept hL hT hR ha hx hn hk hs₁ hs₂ hx₁

end Composition

/-! ## Series operations over failing inputs -/

section Resumes

variable {f : Feed σ α} {R : σ → Stream'.Seq α → ℕ → Prop} {f₁ : Feed σ₁ α} {f₂ : Feed σ₂ α}
  {R₁ : σ₁ → Stream'.Seq α → ℕ → Prop} {R₂ : σ₂ → Stream'.Seq α → ℕ → Prop}

/-- **The integral resumes** where the integral over the failure-free input is. -/
theorem Feed.Transient.integral (h : f.Transient R) :
    (Integral.feed f).Transient (Drains (Integral.feed ofSeq) (Integral.Tracks R) fun _ => True) :=
  (Integral.follows h).transient_drains Integral.steady

/-- **The derivative resumes** where the derivative over the failure-free input is, from a state
whose constant term reads without failure. -/
theorem Feed.Transient.derivative (h : f.Transient R) :
    (Derivative.feed f).Transient
      (Drains (Derivative.feed ofSeq) (Derivative.Tracks f R) fun _ => True) :=
  (Derivative.follows h).transient_drains Derivative.steady

/-- **The reciprocal resumes** where the reciprocal over the failure-free input is. -/
theorem Feed.Transient.reciprocal (h : f.Transient R) :
    (Reciprocal.feed f).Transient
      (Drains (Reciprocal.feed ofSeq) (Reciprocal.Tracks R) fun _ => True) :=
  (Reciprocal.follows h).transient_drains Reciprocal.steady

/-- **A sum resumes** where the sum over failure-free inputs is, when its right input answers
whether its sequence goes on. -/
theorem Feed.Transient.seriesSum (hL : f₁.Transient R₁) (hR : f₂.Transient R₂)
    (hT : f₂.Truthful R₂) :
    (SeriesSum.feed f₁.onLeft f₂.onRight).Transient
      (Drains (SeriesSum.feed ofSeq.onLeft ofSeq.onRight) (SeriesSum.Tracks R₁ R₂)
        fun p => p.1.held = none) :=
  (SeriesSum.follows hL hR hT).transient_drains SeriesSum.steady

/-- **A product resumes** where the product over failure-free inputs is. -/
theorem Feed.Transient.product (hL : f₁.Transient R₁) (hR : f₂.Transient R₂) :
    (Product.feed f₁.onLeft f₂.onRight).Transient
      (Drains (Product.feed ofSeq.onLeft ofSeq.onRight) (Product.Tracks R₁ R₂) fun _ => True) :=
  (Product.follows hL hR).transient_drains Product.steady

/-- **A composition resumes** where the composition over failure-free inputs is, when its outer
input answers whether its sequence goes on. -/
theorem Feed.Transient.composition (hL : f₁.Transient R₁) (hT : f₁.Truthful R₁)
    (hR : f₂.Transient R₂) :
    (Composition.feed f₁.onLeft f₂.onRight).Transient
      (Drains (Composition.feed ofSeq.onLeft ofSeq.onRight) (Composition.Tracks R₁ R₂)
        fun _ => True) :=
  (Composition.follows hL hT hR).transient_drains Composition.steady

end Resumes

end LazySeq
