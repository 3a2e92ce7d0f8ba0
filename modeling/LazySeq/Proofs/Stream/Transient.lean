import Mathlib
import LazySeq.Proofs.Stream.Retry

/-!
# Inputs that fail for a while

A bounded fork refuses a read while a sibling queue is full, and reads on once that queue has
drained; the refused read moves nothing. `Feed.Transient f R` says that an input behaves so: from
a state related by `R` to a sequence `xs`, finite or not, and a count `k`, it hands out `xs`, and
at most `k` of its calls fail on the way. A failed call leaves `xs` where it was and lowers the
count. `hasNext` moves nothing either: it keeps the state related to `xs` and `k`, and answers
whether `xs` goes on, or `true` when the next call is one of the failures.

A count of zero means that nothing fails: the input hands out `xs` exactly and answers `hasNext`
truthfully.

Two consequences hold of every such input, whatever it is built from.

* **Retries lose nothing** (`Feed.Transient.retrying`): a consumer that calls `tryNext` `c` times,
  calling again after every failure, collects the first `c - m` elements of `xs`, where `m ≤ k`
  is the number of failures it met: what the same consumer collects from a run without them.
* **Looking ahead moves nothing** (`Feed.Transient.lookaheadInvisible`): from a state with no
  failure to come, the `tryNext` calls of any schedule of calls answer what the `tryNext` calls
  alone answer, and a `hasNext` that answers `false` is followed by an exhausted `tryNext`. The
  same holds of any input whose look ahead is paired with a run without it (`Feed.Unmoved`).

Neither needs a look ahead asked twice to stay put: both hold of `Feed.Resumes`, which is
`Feed.Transient` without that.

The inputs of an adapter with several inputs sit side by side, each on its own part of the
state (`Feed.onLeft`, `Feed.onRight`), so a call of one input moves nothing of another.
-/

namespace LazySeq

variable {σ ρ α β : Type}

namespace Feed

/-! ## Behaving as a sequence, failures aside -/

/-- What a read answers from the sequence `xs`: its first element, or its end. -/
def answer (xs : Stream'.Seq α) : Outcome α :=
  match xs.head with
  | some a => .ok a
  | none => Outcome.exhausted

@[simp] theorem answer_nil : answer (Stream'.Seq.nil : Stream'.Seq α) = Outcome.exhausted := by
  simp [answer]

@[simp] theorem answer_cons (a : α) (xs : Stream'.Seq α) : answer (Stream'.Seq.cons a xs) = .ok a := by
  simp [answer]

theorem seq_head_ofList (l : List α) : (Stream'.Seq.ofList l).head = l.head? := by
  cases l <;> simp

theorem seq_tail_ofList (l : List α) :
    (Stream'.Seq.ofList l).tail = Stream'.Seq.ofList l.tail := by
  cases l <;> simp

/-- The call `step` from `s` fails with an error other than the end, and leaves a state related
to the same `r` with fewer failures to come. -/
def Fails (step : σ → Outcome β × σ) (R : σ → ρ → ℕ → Prop) (s : σ) (r : ρ) (k : ℕ) : Prop :=
  ∃ e s' k', e ≠ .exhausted ∧ k' < k ∧ step s = (.error (.fail e), s') ∧ R s' r k'

theorem Fails.pos {step : σ → Outcome β × σ} {R : σ → ρ → ℕ → Prop} {s : σ} {r : ρ} {k : ℕ}
    (h : Fails step R s r k) : 0 < k := by
  obtain ⟨-, -, k', -, hk, -⟩ := h
  omega

/-- With no failure to come, no call fails. -/
theorem not_fails_zero {step : σ → Outcome β × σ} {R : σ → ρ → ℕ → Prop} {s : σ} {r : ρ} :
    ¬Fails step R s r 0 :=
  fun h => Nat.lt_irrefl 0 h.pos

/-- A failing call of an input is a failing call of an adapter that passes the failure on from a
state that holds the input's, when the adapter's relation holds wherever the input's does. -/
theorem Fails.lift {σ' ρ ρ' : Type} {step : σ → Outcome α × σ} {step' : σ' → Outcome β × σ'}
    {R : σ → ρ → ℕ → Prop} {R' : σ' → ρ' → ℕ → Prop} {s : σ} {s₀ : σ'} {r : ρ} {r' : ρ'} {k : ℕ}
    (lift : σ → σ')
    (hstep : ∀ e s', step s = (.error (.fail e), s') → step' s₀ = (.error (.fail e), lift s'))
    (hrel : ∀ s' k', R s' r k' → R' (lift s') r' k') (h : Fails step R s r k) :
    Fails step' R' s₀ r' k := by
  obtain ⟨e, s', k', he, hk, ht, hs'⟩ := h
  exact ⟨e, lift s', k', he, hk, hstep e s' ht, hrel s' k' hs'⟩

/-- The next `tryNext` of `f` from `s` fails with an error other than the end. -/
def FailsAt (f : Feed σ α) (s : σ) : Prop :=
  ∃ e s', e ≠ .exhausted ∧ f.tryNext s = (.error (.fail e), s')

/-- A read of a sequence never fails: it answers an element or the end. -/
theorem answer_ne_fail (xs : Stream'.Seq α) {e : SeqError} (he : e ≠ .exhausted) :
    answer xs ≠ .error (.fail e) := by
  unfold answer
  split
  · exact nofun
  · intro h
    exact he (by cases h; rfl)

/-- From a state related by `R` to a sequence `xs` and a count `k`, `f` hands out `xs`; at most
`k` of its calls fail on the way, each leaving `xs` where it was. `hasNext` keeps the state
related to `xs` and `k`, asked again at once it answers the same and moves nothing, and it
answers whether `xs` goes on, or `true` when the next call fails. -/
structure Transient (f : Feed σ α) (R : σ → Stream'.Seq α → ℕ → Prop) : Prop where
  hasNext : ∀ {s xs k}, R s xs k → ∃ b s', f.hasNext s = (.ok b, s') ∧ f.hasNext s' = (.ok b, s') ∧
    R s' xs k ∧ (b = xs.head.isSome ∨ b = true ∧ f.FailsAt s')
  tryNext : ∀ {s xs k}, R s xs k →
    Fails f.tryNext R s xs k ∨ ∃ s', f.tryNext s = (answer xs, s') ∧ R s' xs.tail k

/-- Nothing fails from any related state. -/
def Clean (R : σ → ρ → ℕ → Prop) : Prop := ∀ s r k, R s r k → k = 0

/-- `Transient` less the settling of a look ahead: from a related state `hasNext` keeps the state
related and answers as there, but asked again it may move on. A bucketing past its last sample
reads one more bucket key at every look ahead. Retries and looks ahead need no more. -/
structure Resumes (f : Feed σ α) (R : σ → Stream'.Seq α → ℕ → Prop) : Prop where
  hasNext : ∀ {s xs k}, R s xs k → ∃ b s', f.hasNext s = (.ok b, s') ∧ R s' xs k ∧
    (b = xs.head.isSome ∨ b = true ∧ f.FailsAt s')
  tryNext : ∀ {s xs k}, R s xs k →
    Fails f.tryNext R s xs k ∨ ∃ s', f.tryNext s = (answer xs, s') ∧ R s' xs.tail k

theorem Transient.resumes {f : Feed σ α} {R : σ → Stream'.Seq α → ℕ → Prop} (h : f.Transient R) :
    f.Resumes R where
  hasNext hs := by
    obtain ⟨b, s', hh, -, hs', hb⟩ := h.hasNext hs
    exact ⟨b, s', hh, hs', hb⟩
  tryNext := h.tryNext

/-- A read whose `hasNext` answered `true` passes a failure of `tryNext` on. -/
theorem pull_of_fails {f : Feed σ α} {s s₁ s₂ : σ} {e : SeqError}
    (hh : f.hasNext s = (.ok true, s₁)) (he : e ≠ .exhausted)
    (ht : f.tryNext s₁ = (.error (.fail e), s₂)) : f.pull s = (.error (.fail e), s₂) := by
  cases e <;> simp_all [Feed.pull]

/-- A read from a state whose look ahead has settled on `true` fails when the next call fails. -/
theorem pull_of_failsAt {f : Feed σ α} {s : σ} (hh : f.hasNext s = (.ok true, s)) (hf : f.FailsAt s) :
    ∃ e s', e ≠ .exhausted ∧ f.pull s = (.error (.fail e), s') := by
  obtain ⟨e, s', he, ht⟩ := hf
  exact ⟨e, s', he, pull_of_fails hh he ht⟩

namespace Resumes

variable {f : Feed σ α} {R : σ → Stream'.Seq α → ℕ → Prop}

/-- A call that fails from a related state is one of the failures to come. -/
theorem fails (h : f.Resumes R) {s : σ} {xs : Stream'.Seq α} {k : ℕ} (hs : R s xs k)
    (hf : f.FailsAt s) : Fails f.tryNext R s xs k := by
  refine (h.tryNext hs).resolve_right ?_
  rintro ⟨s', ht, -⟩
  obtain ⟨e, s'', he, ht'⟩ := hf
  rw [ht] at ht'
  exact answer_ne_fail xs he (Prod.mk.inj ht').1

/-- With no failure to come, no call fails. -/
theorem not_failsAt (h : f.Resumes R) {s : σ} {xs : Stream'.Seq α} (hs : R s xs 0) :
    ¬f.FailsAt s :=
  fun hf => not_fails_zero (h.fails hs hf)

/-- With no failure to come, `hasNext` answers whether the sequence goes on. -/
theorem hasNext_clean (h : f.Resumes R) {s : σ} {xs : Stream'.Seq α} (hs : R s xs 0) :
    ∃ s', f.hasNext s = (.ok xs.head.isSome, s') ∧ R s' xs 0 := by
  obtain ⟨b, s', hh, hs', hb | ⟨-, hf⟩⟩ := h.hasNext hs
  · exact ⟨s', hb ▸ hh, hs'⟩
  · exact absurd hf (h.not_failsAt hs')

/-- With no failure to come, `tryNext` answers the head of the sequence and leaves its tail. -/
theorem tryNext_clean (h : f.Resumes R) {s : σ} {xs : Stream'.Seq α} (hs : R s xs 0) :
    ∃ s', f.tryNext s = (answer xs, s') ∧ R s' xs.tail 0 :=
  (h.tryNext hs).resolve_left not_fails_zero

/-- **Retries lose nothing.** A consumer that calls `tryNext` `c` times and calls again after
every failure collects the first `c - m` elements of the sequence, where `m`, at most the count of
failures to come and at most `c`, is the number of calls that failed. -/
theorem retrying (h : f.Resumes R) :
    ∀ (c : ℕ) {s : σ} {xs : Stream'.Seq α} {k : ℕ}, R s xs k →
      ∃ m, m ≤ k ∧ m ≤ c ∧ f.retrying c s = xs.take (c - m)
  | 0, _, _, _, _ => ⟨0, Nat.zero_le _, le_rfl, rfl⟩
  | c + 1, s, xs, k, hs => by
    rcases h.tryNext hs with ⟨e, s', k', he, hk, ht, hs'⟩ | ⟨s', ht, hs'⟩
    · -- the failed call costs one call and one failure, and moves nothing
      obtain ⟨m, hmk, hmc, hrun⟩ := retrying h c hs'
      refine ⟨m + 1, by omega, by omega, ?_⟩
      rw [Feed.retrying_succ_of_fail he ht, hrun]
      congr 1
      omega
    · cases xs using Stream'.Seq.recOn with
      | nil =>
        refine ⟨0, Nat.zero_le _, Nat.zero_le _, ?_⟩
        rw [answer_nil] at ht
        rw [Feed.retrying_succ_of_exhausted ht, Stream'.Seq.take_nil]
      | cons a xs =>
        rw [answer_cons] at ht
        rw [Stream'.Seq.tail_cons] at hs'
        obtain ⟨m, hmk, hmc, hrun⟩ := retrying h c hs'
        refine ⟨m, hmk, by omega, ?_⟩
        rw [Feed.retrying_succ_of_ok ht, hrun, show c + 1 - m = c - m + 1 by omega,
          Stream'.Seq.take_succ_cons]

/-- With no failure to come, a retrying consumer collects the first `c` elements. -/
theorem retrying_clean (h : f.Resumes R) (c : ℕ) {s : σ} {xs : Stream'.Seq α} (hs : R s xs 0) :
    f.retrying c s = xs.take c := by
  obtain ⟨m, hm, -, hrun⟩ := h.retrying c hs
  rwa [Nat.le_zero.1 hm, Nat.sub_zero] at hrun

end Resumes

namespace Transient

variable {f : Feed σ α} {R : σ → Stream'.Seq α → ℕ → Prop}

theorem fails (h : f.Transient R) {s : σ} {xs : Stream'.Seq α} {k : ℕ} (hs : R s xs k)
    (hf : f.FailsAt s) : Fails f.tryNext R s xs k :=
  h.resumes.fails hs hf

theorem not_failsAt (h : f.Transient R) {s : σ} {xs : Stream'.Seq α} (hs : R s xs 0) :
    ¬f.FailsAt s :=
  h.resumes.not_failsAt hs

theorem hasNext_clean (h : f.Transient R) {s : σ} {xs : Stream'.Seq α} (hs : R s xs 0) :
    ∃ s', f.hasNext s = (.ok xs.head.isSome, s') ∧ R s' xs 0 :=
  h.resumes.hasNext_clean hs

theorem tryNext_clean (h : f.Transient R) {s : σ} {xs : Stream'.Seq α} (hs : R s xs 0) :
    ∃ s', f.tryNext s = (answer xs, s') ∧ R s' xs.tail 0 :=
  h.resumes.tryNext_clean hs

/-- **One read.** A read fails, leaving the sequence where it was with fewer failures to come,
or hands out the head of the sequence, if any, and leaves its tail. -/
theorem pull (h : f.Transient R) {s : σ} {xs : Stream'.Seq α} {k : ℕ} (hs : R s xs k) :
    Fails f.pull R s xs k ∨ ∃ s', f.pull s = (.ok xs.head, s') ∧ R s' xs.tail k := by
  obtain ⟨b, s₁, hh, -, hs₁, hb | ⟨rfl, hf⟩⟩ := h.hasNext hs
  · cases hx : xs.head with
    | none =>
      -- the end: nothing more is read
      rw [hx] at hb
      subst hb
      rw [Stream'.Seq.head_eq_none_iff.1 hx] at hs₁ ⊢
      exact .inr ⟨s₁, by simp [Feed.pull, hh], by simpa using hs₁⟩
    | some a =>
      rw [hx] at hb
      subst hb
      rcases h.tryNext hs₁ with ⟨e, s₂, k', he, hk, ht, hs₂⟩ | ⟨s₂, ht, hs₂⟩
      · exact .inl ⟨e, s₂, k', he, hk, pull_of_fails hh he ht, hs₂⟩
      · have ht' : f.tryNext s₁ = (.ok a, s₂) := by rw [ht, answer, hx]
        exact .inr ⟨s₂, by simp [Feed.pull, hh, ht'], hs₂⟩
  · obtain ⟨e, s₂, k', he, hk, ht, hs₂⟩ := h.fails hs₁ hf
    exact .inl ⟨e, s₂, k', he, hk, pull_of_fails hh he ht, hs₂⟩

/-- A read that found the end was a look ahead that answered `false`: one that answers `true` is
followed by an element or a failure. -/
theorem hasNext_of_pull_none (h : f.Transient R) {s s' : σ} {xs : Stream'.Seq α} {k : ℕ}
    (hs : R s xs k) (hp : f.pull s = (.ok none, s')) : f.hasNext s = (.ok false, s') := by
  obtain ⟨b, s₁, hh, -, hs₁, hb⟩ := h.hasNext hs
  cases b with
  | false =>
    obtain rfl : s₁ = s' := by simpa [Feed.pull, hh] using hp
    exact hh
  | true =>
    -- a call after a look ahead that said `true` neither finds the end nor fails
    exfalso
    have hex : f.tryNext s₁ = (Outcome.exhausted, s') := by
      rcases ht : f.tryNext s₁ with ⟨_ | a, s₂⟩
      · rename_i e
        cases e with
        | fail e => cases e <;> simp_all [Feed.pull, Outcome.exhausted]
        | abort r => simp_all [Feed.pull]
      · simp_all [Feed.pull]
    rcases h.tryNext hs₁ with ⟨e, s₂, k', he, -, ht, -⟩ | ⟨s₂, ht, -⟩
    · rw [hex] at ht
      exact he (by cases ht; rfl)
    · rw [hex] at ht
      have hnone : xs.head = none := by
        unfold answer at ht
        split at ht
        · cases ht
        · assumption
      rcases hb with hb | ⟨-, e, s₃, he, ht'⟩
      · simp [hnone] at hb
      · rw [hex] at ht'
        exact he (by cases ht'; rfl)

/-- A read that found the end leaves a state where a read finds the end again and moves
nothing. -/
theorem pull_end (h : f.Transient R) {s s' : σ} {xs : Stream'.Seq α} {k : ℕ} (hs : R s xs k)
    (hp : f.pull s = (.ok none, s')) : f.pull s' = (.ok none, s') := by
  -- the look ahead said `false`, and says it again from where it left the input
  obtain ⟨b, s₁, hh, hh', -, -⟩ := h.hasNext hs
  rw [h.hasNext_of_pull_none hs hp] at hh
  simp only [Prod.mk.injEq, Except.ok.injEq] at hh
  obtain ⟨rfl, rfl⟩ := hh
  simp [Feed.pull, hh']

/-- With no failure to come, a read hands out the head of the sequence and leaves its tail. -/
theorem pull_clean (h : f.Transient R) {s : σ} {xs : Stream'.Seq α} (hs : R s xs 0) :
    ∃ s', f.pull s = (.ok xs.head, s') ∧ R s' xs.tail 0 :=
  (h.pull hs).resolve_left not_fails_zero

theorem retrying (h : f.Transient R) (c : ℕ) {s : σ} {xs : Stream'.Seq α} {k : ℕ}
    (hs : R s xs k) : ∃ m, m ≤ k ∧ m ≤ c ∧ f.retrying c s = xs.take (c - m) :=
  h.resumes.retrying c hs

theorem retrying_clean (h : f.Transient R) (c : ℕ) {s : σ} {xs : Stream'.Seq α} (hs : R s xs 0) :
    f.retrying c s = xs.take c :=
  h.resumes.retrying_clean c hs

/-- The states with no failure to come. -/
theorem clean (h : f.Transient R) : f.Transient fun s xs k => k = 0 ∧ R s xs 0 where
  hasNext := by
    rintro s xs k ⟨rfl, hs⟩
    obtain ⟨b, s', hh, hh', hs', hb⟩ := h.hasNext hs
    exact ⟨b, s', hh, hh', ⟨rfl, hs'⟩, hb⟩
  tryNext := by
    rintro s xs k ⟨rfl, hs⟩
    obtain ⟨s', ht, hs'⟩ := h.tryNext_clean hs
    exact .inr ⟨s', ht, rfl, hs'⟩

end Transient

/-- `hasNext` answers whether the sequence goes on, also when a failure is coming. -/
def Truthful (f : Feed σ α) (R : σ → Stream'.Seq α → ℕ → Prop) : Prop :=
  ∀ {s xs k}, R s xs k → (f.hasNext s).1 = .ok xs.head.isSome

/-- With no failure to come, `hasNext` answers truthfully. -/
theorem Transient.truthful_clean {f : Feed σ α} {R : σ → Stream'.Seq α → ℕ → Prop}
    (h : f.Transient R) : f.Truthful fun s xs k => k = 0 ∧ R s xs 0 := by
  rintro s xs k ⟨rfl, hs⟩
  obtain ⟨s', hh, -⟩ := h.hasNext_clean hs
  rw [hh]

/-! ## Schedules of calls -/

/-- A call a consumer makes. -/
inductive Call where
  | hasNext
  | tryNext
deriving DecidableEq, Repr

/-- The answers of the `tryNext` calls of a schedule of calls, made from `s`. -/
def tryAnswers (f : Feed σ α) : List Call → σ → List (Outcome α)
  | [], _ => []
  | Call.hasNext :: cs, s => f.tryAnswers cs (f.hasNext s).2
  | Call.tryNext :: cs, s => (f.tryNext s).1 :: f.tryAnswers cs (f.tryNext s).2

/-- The state after a schedule of calls made from `s`. -/
def afterCalls (f : Feed σ α) : List Call → σ → σ
  | [], s => s
  | Call.hasNext :: cs, s => f.afterCalls cs (f.hasNext s).2
  | Call.tryNext :: cs, s => f.afterCalls cs (f.tryNext s).2

/-- `hasNext` calls inserted anywhere in a schedule change no answer of its `tryNext` calls, and
after any schedule a `hasNext` that answers `false` is followed by an exhausted `tryNext`. -/
def LookaheadInvisible (f : Feed σ α) (s : σ) : Prop :=
  (∀ cs : List Call,
    f.tryAnswers cs s = f.tryAnswers (List.replicate (cs.count .tryNext) .tryNext) s) ∧
  ∀ cs : List Call, (f.hasNext (f.afterCalls cs s)).1 = .ok false →
    (f.tryNext (f.hasNext (f.afterCalls cs s)).2).1 = Outcome.exhausted

/-- `E t s` pairs a state `s` reached with looks ahead with the state `t` the same `tryNext`
calls reach without them: a look ahead keeps the pair, paired states answer `tryNext` alike and
stay paired, and a look ahead that answers `false` is followed by an exhausted `tryNext`. -/
structure Unmoved (f : Feed σ α) (E : σ → σ → Prop) : Prop where
  hasNext : ∀ {t s}, E t s → E t (f.hasNext s).2
  tryNext : ∀ {t s}, E t s → (f.tryNext t).1 = (f.tryNext s).1 ∧ E (f.tryNext t).2 (f.tryNext s).2
  hasNext_false : ∀ {t s}, E t s → (f.hasNext s).1 = .ok false →
    (f.tryNext (f.hasNext s).2).1 = Outcome.exhausted

namespace Unmoved

variable {f : Feed σ α} {E : σ → σ → Prop}

/-- A schedule answers its `tryNext` calls as the `tryNext` calls alone answer them from the
paired state. -/
theorem tryAnswers_eq (h : f.Unmoved E) :
    ∀ (cs : List Call) {t s : σ}, E t s →
      f.tryAnswers cs s = f.tryAnswers (List.replicate (cs.count .tryNext) .tryNext) t
  | [], _, _, _ => rfl
  | Call.hasNext :: cs, t, s, hts => by
    rw [tryAnswers, tryAnswers_eq h cs (h.hasNext hts), List.count_cons]
    rfl
  | Call.tryNext :: cs, t, s, hts => by
    obtain ⟨hans, hnext⟩ := h.tryNext hts
    rw [tryAnswers, tryAnswers_eq h cs hnext, List.count_cons_self, List.replicate_succ, tryAnswers,
      hans]

/-- After a schedule, the state stays paired with the state its `tryNext` calls alone reach. -/
theorem afterCalls_paired (h : f.Unmoved E) :
    ∀ (cs : List Call) {t s : σ}, E t s →
      E (f.afterCalls (List.replicate (cs.count .tryNext) .tryNext) t) (f.afterCalls cs s)
  | [], _, _, hts => hts
  | Call.hasNext :: cs, t, s, hts => by
    rw [afterCalls, List.count_cons]
    exact afterCalls_paired h cs (h.hasNext hts)
  | Call.tryNext :: cs, t, s, hts => by
    rw [afterCalls, List.count_cons_self, List.replicate_succ, afterCalls]
    exact afterCalls_paired h cs (h.tryNext hts).2

/-- **Looking ahead moves nothing**, from a state paired with itself. -/
theorem lookaheadInvisible (h : f.Unmoved E) {s : σ} (hs : E s s) : f.LookaheadInvisible s :=
  ⟨fun cs => h.tryAnswers_eq cs hs, fun cs hfalse => h.hasNext_false (h.afterCalls_paired cs hs) hfalse⟩

end Unmoved

namespace Resumes

variable {f : Feed σ α} {R : σ → Stream'.Seq α → ℕ → Prop}

/-- Two states related to the same sequence with no failure to come answer every call alike: the
pairing a look ahead keeps. -/
theorem unmoved (h : f.Resumes R) : f.Unmoved fun t s => ∃ xs, R t xs 0 ∧ R s xs 0 where
  hasNext := by
    rintro t s ⟨xs, ht, hs⟩
    obtain ⟨b, s', hh, hs', -⟩ := h.hasNext hs
    exact ⟨xs, ht, by rw [hh]; exact hs'⟩
  tryNext := by
    rintro t s ⟨xs, ht, hs⟩
    obtain ⟨t', htt, ht'⟩ := h.tryNext_clean ht
    obtain ⟨s', hst, hs'⟩ := h.tryNext_clean hs
    rw [htt, hst]
    exact ⟨rfl, xs.tail, ht', hs'⟩
  hasNext_false := by
    rintro t s ⟨xs, -, hs⟩ hfalse
    obtain ⟨s', hh, hs'⟩ := h.hasNext_clean hs
    rw [hh] at hfalse ⊢
    -- `hasNext` answered `false`, so the sequence has ended
    have hnil : xs = Stream'.Seq.nil := by
      cases hb : xs.head with
      | none => exact Stream'.Seq.head_eq_none_iff.1 hb
      | some a => simp [hb] at hfalse
    obtain ⟨s'', hst, -⟩ := h.tryNext_clean hs'
    rw [hst, hnil, answer_nil]

/-- **Looking ahead moves nothing** in an input with no failure to come. -/
theorem lookaheadInvisible (h : f.Resumes R) {s : σ} {xs : Stream'.Seq α} (hs : R s xs 0) :
    f.LookaheadInvisible s :=
  h.unmoved.lookaheadInvisible ⟨xs, hs, hs⟩

end Resumes

namespace Transient

variable {f : Feed σ α} {R : σ → Stream'.Seq α → ℕ → Prop}

theorem unmoved (h : f.Transient R) : f.Unmoved fun t s => ∃ xs, R t xs 0 ∧ R s xs 0 :=
  h.resumes.unmoved

theorem lookaheadInvisible (h : f.Transient R) {s : σ} {xs : Stream'.Seq α} (hs : R s xs 0) :
    f.LookaheadInvisible s :=
  h.resumes.lookaheadInvisible hs

end Transient

/-! ## Inputs side by side -/

/-- A read of an input that lives in a part of a larger state reads that part, when the part
set is the part got and a second setting overrides the first. -/
theorem focus_pull {ω τ : Type} {get : ω → τ} {set : ω → τ → ω}
    (hget : ∀ s t, get (set s t) = t) (hset : ∀ s t t', set (set s t) t' = set s t')
    (f : Feed τ α) (s : ω) :
    (f.focus get set).pull s = ((f.pull (get s)).1, set s (f.pull (get s)).2) := by
  unfold Feed.pull
  rcases hh : f.hasNext (get s) with ⟨_ | _ | _, t⟩
  · simp [Feed.focus, hh]
  · simp [Feed.focus, hh]
  · rcases ht : f.tryNext t with ⟨h | a, t'⟩
    · cases h with
      | fail e => cases e <;> simp [Feed.focus, hh, hget, hset, ht]
      | abort r => simp [Feed.focus, hh, hget, hset, ht]
    · simp [Feed.focus, hh, hget, hset, ht]

section Side

variable {σ₁ σ₂ : Type} (f : Feed σ₁ α) (g : Feed σ₂ β) (s₁ : σ₁) (s₂ : σ₂)

@[simp] theorem onLeft_hasNext :
    f.onLeft.hasNext (s₁, s₂) = ((f.hasNext s₁).1, ((f.hasNext s₁).2, s₂)) := rfl

@[simp] theorem onLeft_tryNext :
    f.onLeft.tryNext (s₁, s₂) = ((f.tryNext s₁).1, ((f.tryNext s₁).2, s₂)) := rfl

@[simp] theorem onRight_hasNext :
    g.onRight.hasNext (s₁, s₂) = ((g.hasNext s₂).1, (s₁, (g.hasNext s₂).2)) := rfl

@[simp] theorem onRight_tryNext :
    g.onRight.tryNext (s₁, s₂) = ((g.tryNext s₂).1, (s₁, (g.tryNext s₂).2)) := rfl

/-- A read of the left input reads its own part of the state. -/
@[simp] theorem onLeft_pull : f.onLeft.pull (s₁, s₂) = ((f.pull s₁).1, ((f.pull s₁).2, s₂)) := by
  unfold onLeft
  refine focus_pull ?_ ?_ f (s₁, s₂) <;> intros <;> rfl

/-- A read of the right input reads its own part of the state. -/
@[simp] theorem onRight_pull : g.onRight.pull (s₁, s₂) = ((g.pull s₂).1, (s₁, (g.pull s₂).2)) := by
  unfold onRight
  refine focus_pull ?_ ?_ g (s₁, s₂) <;> intros <;> rfl

end Side

end Feed

end LazySeq
