import Mathlib
import LazySeq.Proofs.Stream.Transient

/-!
# Resuming where the run without failures would be

An adapter whose output is no simple function of its inputs' sequences (a product of series, a
segmentation, buckets of samples) is compared with itself: the same adapter over inputs that hold
the same sequences and never fail. `Feed.ofSeq` is such an input, its state the sequence it still
holds, and `Feed.drain` is what a feed hands out when read to its end.

* `Feed.Steady`: from the states of a predicate, a feed never fails, its `hasNext` answers whether
  `tryNext` hands out an element, asking again answers the same and moves nothing, and `tryNext`
  after it does what it would have done. Such a feed hands out its drain
  (`Feed.Steady.transient`).
* `Feed.Follows`: a feed `g` over failing inputs follows `g₀` over failure-free ones along a
  relation of their states that counts the failures still to come. Each call of `g` either fails,
  leaving a state still related to the same state of `g₀` with fewer failures to come, or answers
  as `g₀` does and leaves related states; looking ahead, `g` may instead keep a failure for its
  next call. A failure is a step of `g` alone, after which `g` resumes where `g₀` still is.

**Main statement.** `Feed.Follows.transient`: a feed that follows a steady one hands out, whatever
its failures, what the steady one drains from the related state.
-/

namespace LazySeq

namespace Feed

variable {α β ρ ρ₀ : Type}

/-- The input that holds the sequence `xs` and never fails: its state is what it still holds. -/
def ofSeq : Feed (Stream'.Seq α) α where
  hasNext xs := (.ok xs.head.isSome, xs)
  tryNext xs := (answer xs, xs.tail)

@[simp] theorem ofSeq_hasNext (xs : Stream'.Seq α) : ofSeq.hasNext xs = (.ok xs.head.isSome, xs) :=
  rfl

@[simp] theorem ofSeq_tryNext (xs : Stream'.Seq α) : ofSeq.tryNext xs = (answer xs, xs.tail) :=
  rfl

/-- A read of the failure-free input hands out its head and leaves its tail. -/
@[simp] theorem ofSeq_pull (xs : Stream'.Seq α) : ofSeq.pull xs = (.ok xs.head, xs.tail) := by
  cases hx : xs.head with
  | none =>
    have hnil : xs = .nil := by
      rw [Stream'.Seq.head_eq_none_iff] at hx
      exact hx
    subst hnil
    simp [Feed.pull]
  | some a =>
    simp [Feed.pull, hx, answer]

/-- The failure-free input hands out what it holds. -/
theorem transient_ofSeq : (ofSeq (α := α)).Transient fun s xs _ => s = xs where
  hasNext := by
    rintro s xs k rfl
    exact ⟨_, s, rfl, rfl, rfl, .inl rfl⟩
  tryNext := by
    rintro s xs k rfl
    exact .inr ⟨s.tail, rfl, rfl⟩

/-- What a feed hands out from `p` read to its end; a failure ends it too. -/
def drain (g : Feed ρ β) : ρ → Stream'.Seq β :=
  Stream'.Seq.corec fun p =>
    match g.pull p with
    | (.ok (some b), p') => some (b, p')
    | _ => none

variable {g : Feed ρ β}

theorem drain_of_pull_some {p p' : ρ} {b : β} (h : g.pull p = (.ok (some b), p')) :
    g.drain p = .cons b (g.drain p') := by
  apply Stream'.Seq.destruct_eq_cons
  rw [drain, Stream'.Seq.corec_eq, h]
  rfl

/-- A read that hands out nothing, at the end or failing, ends what is drained. -/
theorem drain_of_pull_not_some {p : ρ} (h : ∀ b p', g.pull p ≠ (.ok (some b), p')) :
    g.drain p = .nil := by
  apply Stream'.Seq.corec_nil
  rcases hp : g.pull p with ⟨_ | _ | b, p'⟩
  · rfl
  · rfl
  · exact absurd hp (h b p')

theorem drain_of_pull_none {p p' : ρ} (h : g.pull p = (.ok none, p')) : g.drain p = .nil :=
  drain_of_pull_not_some fun _ _ hp => by rw [h] at hp; cases hp

/-- Two states that read alike drain alike. -/
theorem drain_congr {p q : ρ} (h : g.pull q = g.pull p) : g.drain q = g.drain p := by
  rcases hp : g.pull p with ⟨_ | _ | b, p'⟩
  · rw [drain_of_pull_not_some (by rw [h, hp]; simp), drain_of_pull_not_some (by rw [hp]; simp)]
  · rw [drain_of_pull_none (h.trans hp), drain_of_pull_none hp]
  · rw [drain_of_pull_some (h.trans hp), drain_of_pull_some hp]

/-- Two states whose looks ahead answer alike drain alike. -/
theorem drain_congr_hasNext {p q : ρ} (h : g.hasNext q = g.hasNext p) : g.drain q = g.drain p :=
  drain_congr (by simp only [Feed.pull, h])

/-- Two states whose looks ahead answer `true` and move nothing, and whose reads answer alike,
drain alike. -/
theorem drain_congr_ready {p q : ρ} (hp : g.hasNext p = (.ok true, p))
    (hq : g.hasNext q = (.ok true, q)) (h : g.tryNext q = g.tryNext p) : g.drain q = g.drain p :=
  drain_congr (by simp only [Feed.pull, hp, hq, h])

/-- A look ahead that answers `false` ends what is drained. -/
theorem drain_of_hasNext_false {p p' : ρ} (h : g.hasNext p = (.ok false, p')) : g.drain p = .nil :=
  drain_of_pull_none (show g.pull p = (.ok none, p') by simp [Feed.pull, h])

/-- Looking ahead with an answer that asking again repeats, and then reading, reads as reading
does. -/
theorem pull_of_hasNext_again {p p' : ρ} {b : Bool} (hh : g.hasNext p = (.ok b, p'))
    (hh' : g.hasNext p' = (.ok b, p')) : g.pull p' = g.pull p := by
  simp only [Feed.pull, hh, hh']

/-! ## Feeds that never fail -/

/-- From the states of `P`, `g` never fails: `hasNext` answers whether `tryNext` hands out an
element, asking again answers the same and moves nothing, `tryNext` after it does what it would
have done, and the state stays in `P`. -/
structure Steady (g : Feed ρ β) (P : ρ → Prop) : Prop where
  hasNext : ∀ {p}, P p → ∃ b p', g.hasNext p = (.ok b, p') ∧ g.hasNext p' = (.ok b, p') ∧ P p' ∧
    g.tryNext p' = g.tryNext p
  next : ∀ {p p'}, P p → g.hasNext p = (.ok true, p') → ∃ b p'', g.tryNext p' = (.ok b, p'') ∧ P p''
  stop : ∀ {p p'}, P p → g.hasNext p = (.ok false, p') → g.tryNext p' = (Outcome.exhausted, p')

variable {P : ρ → Prop}

/-- A feed whose `hasNext` moves nothing is steady when it hands out an element after answering
`true` and ends after answering `false`. -/
theorem Steady.of_still (hstill : ∀ {p}, P p → ∃ b, g.hasNext p = (.ok b, p))
    (hnext : ∀ {p}, P p → g.hasNext p = (.ok true, p) → ∃ b p', g.tryNext p = (.ok b, p') ∧ P p')
    (hstop : ∀ {p}, P p → g.hasNext p = (.ok false, p) → g.tryNext p = (Outcome.exhausted, p)) :
    g.Steady P where
  hasNext hp := by
    obtain ⟨b, hh⟩ := hstill hp
    exact ⟨b, _, hh, hh, hp, rfl⟩
  next hp hh := by
    obtain ⟨b, hh'⟩ := hstill hp
    rw [hh'] at hh
    obtain ⟨rfl, rfl⟩ := Prod.mk.inj hh |>.imp (fun h => Except.ok.inj h) id
    exact hnext hp hh'
  stop hp hh := by
    obtain ⟨b, hh'⟩ := hstill hp
    rw [hh'] at hh
    obtain ⟨rfl, rfl⟩ := Prod.mk.inj hh |>.imp (fun h => Except.ok.inj h) id
    exact hstop hp hh'

/-- **A steady feed hands out its drain.** -/
theorem Steady.transient (h : g.Steady P) : g.Transient fun p ys _ => P p ∧ ys = g.drain p where
  hasNext := by
    rintro p _ k ⟨hp, rfl⟩
    obtain ⟨b, p', hh, hh', hp', -⟩ := h.hasNext hp
    refine ⟨b, p', hh, hh', ⟨hp', (drain_congr (pull_of_hasNext_again hh hh')).symm⟩, .inl ?_⟩
    cases b with
    | false => rw [drain_of_pull_none (show g.pull p = (.ok none, p') by simp [Feed.pull, hh])]; rfl
    | true =>
      obtain ⟨c, p'', ht, -⟩ := h.next hp hh
      rw [drain_of_pull_some (show g.pull p = (.ok (some c), p'') by simp [Feed.pull, hh, ht])]
      rfl
  tryNext := by
    rintro p _ k ⟨hp, rfl⟩
    obtain ⟨b, p', hh, hh', hp', ht⟩ := h.hasNext hp
    cases b with
    | false =>
      -- nothing ahead: the end, and the state stays
      have hnil := drain_of_pull_none (show g.pull p = (.ok none, p') by simp [Feed.pull, hh])
      refine .inr ⟨p', by rw [← ht, h.stop hp hh, hnil]; rfl, hp', ?_⟩
      rw [hnil, drain_congr (pull_of_hasNext_again hh hh'), hnil]
      rfl
    | true =>
      obtain ⟨c, p'', hnext, hp''⟩ := h.next hp hh
      have hcons := drain_of_pull_some (show g.pull p = (.ok (some c), p'') by
        simp [Feed.pull, hh, hnext])
      refine .inr ⟨p'', by rw [← ht, hnext, hcons]; rfl, hp'', by rw [hcons]; rfl⟩

/-! ## Following the run without failures -/

/-- `g` follows `g₀` along `S`, which relates their states and counts the failures still to
come. Looking ahead, `g` answers as `g₀` does, or keeps a failure for its next call; each
`tryNext` of `g` fails, leaving a state related to the same state of `g₀` with fewer failures to
come, or answers as `g₀` does from states still related. -/
structure Follows (g : Feed ρ β) (g₀ : Feed ρ₀ β) (S : ρ → ρ₀ → ℕ → Prop) : Prop where
  hasNext : ∀ {p p₀ k}, S p p₀ k → ∃ b p', g.hasNext p = (.ok b, p') ∧ g.hasNext p' = (.ok b, p') ∧
    ((∃ p₀', g₀.hasNext p₀ = (.ok b, p₀') ∧ S p' p₀' k) ∨ (b = true ∧ g.FailsAt p' ∧ S p' p₀ k))
  tryNext : ∀ {p p₀ k}, S p p₀ k → Fails g.tryNext S p p₀ k ∨
    ∃ p', g.tryNext p = ((g₀.tryNext p₀).1, p') ∧ S p' (g₀.tryNext p₀).2 k

variable {g₀ : Feed ρ₀ β} {S : ρ → ρ₀ → ℕ → Prop} {Q : ρ₀ → Stream'.Seq β → ℕ → Prop}

/-- **A feed that follows a failure-free one hands out what that one does.** Over failing inputs
`g` hands out, whatever its failures, the sequence `g₀` hands out from the related state. -/
theorem Follows.transient (h : g.Follows g₀ S) (h₀ : g₀.Transient Q) :
    g.Transient fun p ys k => ∃ p₀, S p p₀ k ∧ Q p₀ ys 0 where
  hasNext := by
    rintro p ys k ⟨p₀, hs, hq⟩
    obtain ⟨b, p', hh, hh', ⟨p₀', hh₀, hs'⟩ | ⟨rfl, hf, hs'⟩⟩ := h.hasNext hs
    · -- the same answer as the run without failures, which answers truthfully
      obtain ⟨p₀'', hh₀', hq'⟩ := h₀.hasNext_clean hq
      rw [hh₀, Prod.mk.injEq, Except.ok.injEq] at hh₀'
      obtain ⟨rfl, rfl⟩ := hh₀'
      exact ⟨_, p', hh, hh', ⟨_, hs', hq'⟩, .inl rfl⟩
    · exact ⟨true, p', hh, hh', ⟨p₀, hs', hq⟩, .inr ⟨rfl, hf⟩⟩
  tryNext := by
    rintro p ys k ⟨p₀, hs, hq⟩
    rcases h.tryNext hs with ⟨e, p', k', he, hk, ht, hs'⟩ | ⟨p', ht, hs'⟩
    · exact .inl ⟨e, p', k', he, hk, ht, p₀, hs', hq⟩
    · obtain ⟨p₀', ht₀, hq'⟩ := h₀.tryNext_clean hq
      rw [ht₀] at ht hs'
      exact .inr ⟨p', ht, p₀', hs', hq'⟩

/-- What a feed that follows `g₀` along `S` hands out: what `g₀` drains from a related state of
`P`. -/
def Drains (g₀ : Feed ρ₀ β) (S : ρ → ρ₀ → ℕ → Prop) (P : ρ₀ → Prop) (p : ρ) (ys : Stream'.Seq β)
    (k : ℕ) : Prop :=
  ∃ p₀, S p p₀ k ∧ P p₀ ∧ ys = g₀.drain p₀

/-- **A feed that follows a steady one hands out what that one drains.** -/
theorem Follows.transient_drains {P₀ : ρ₀ → Prop} (h : g.Follows g₀ S) (h₀ : g₀.Steady P₀) :
    g.Transient (Drains g₀ S P₀) :=
  h.transient h₀.transient

end Feed

end LazySeq
