import Mathlib
import LazySeq.Proofs.PowerSeries.Exact
import LazySeq.Proofs.Stream.Delivery

/-!
# The lazy Cauchy product

`cauchy a b` is the Cauchy product of two coefficient sequences: its coefficient `n` is the sum
of `aᵢ · bⱼ` over `i + j = n`, and it has one exactly when some coefficient of `a` and some of
`b` have indices summing to `n` (`PairsTo`). For two polynomials with `m` and `k` coefficients
that is `m + k - 1` coefficients; when either factor is infinite, so is the product.

`ProductAt a b R` is what the product adapter holds after `n` outputs: the first `n`
coefficients of each factor (all of a factor that has fewer), read in order and never again, so
that output `n` reads at most the `n + 1`-th coefficient of each factor. From there the adapter
answers `hasNext` as the product has coefficient `n` and `tryNext` with that coefficient
(`Product.hasNext_after`, `Product.tryNext_after`).

Squaring forks its input into two and multiplies the forks. `Forks` is what an unbounded hub
of two forks keeps: each queue holds what the upstream handed out that its fork has not, and
the upstream has handed out as much as the further fork (`Feed.Streams.forks`). Read in lockstep
by the product, both queues are empty between outputs and the upstream's log is the prefix the
product has read, each coefficient once (`SquareAt`).

**Main statement.** `multiply_streams_cauchy`: over any two factors with a first coefficient,
finite or not, the product streams `cauchy a b`, reading no more than it has emitted plus one;
for finite factors it has `m + k - 1` coefficients; and the square of a series streams
`cauchy xs xs`, its upstream read once per coefficient.
-/

namespace LazySeq

open Finset Coefficient

variable {σ α : Type}

/-! ## The product of two coefficient sequences -/

/-- Some coefficient of `a` and some coefficient of `b` have indices summing to `n`. -/
def PairsTo (a b : Stream'.Seq ℚ) (n : ℕ) : Prop :=
  ∃ p ∈ antidiagonal n, (a.get? p.1).isSome ∧ (b.get? p.2).isSome

instance PairsTo.decidable (a b : Stream'.Seq ℚ) (n : ℕ) : Decidable (PairsTo a b n) :=
  inferInstanceAs (Decidable (∃ p ∈ antidiagonal n, _))

/-- A pair of coefficients summing to `n + 1` gives one summing to `n`: lower the index of `a`
when it is positive, else that of `b`. -/
theorem PairsTo.pred {a b : Stream'.Seq ℚ} {n : ℕ} (h : PairsTo a b (n + 1)) : PairsTo a b n := by
  obtain ⟨⟨i, j⟩, hij, hi, hj⟩ := h
  rw [HasAntidiagonal.mem_antidiagonal] at hij
  cases i with
  | zero =>
    have hjn : j = n + 1 := by simpa using hij
    subst hjn
    exact ⟨(0, n), by simp, hi, isSome_get?_of_le (Nat.le_succ n) hj⟩
  | succ i =>
    exact ⟨(i, j), by simp only [HasAntidiagonal.mem_antidiagonal]; omega,
      isSome_get?_of_le (Nat.le_succ i) hi, hj⟩

/-- The Cauchy product of two coefficient sequences: coefficient `n` is the sum of `aᵢ · bⱼ`
over `i + j = n`, missing coefficients counting as zero, and it is there as long as some pair
of coefficients has indices summing to `n`. -/
def cauchy (a b : Stream'.Seq ℚ) : Stream'.Seq ℚ :=
  ⟨fun n => if PairsTo a b n then some (∑ p ∈ antidiagonal n, coeffAt a p.1 * coeffAt b p.2)
    else none, fun {n} h => by
      have hn : ¬PairsTo a b n := fun hp => by simp [hp] at h
      exact if_neg fun hp => hn hp.pred⟩

theorem cauchy_get? (a b : Stream'.Seq ℚ) (n : ℕ) :
    (cauchy a b).get? n = if PairsTo a b n
      then some (∑ p ∈ antidiagonal n, coeffAt a p.1 * coeffAt b p.2) else none := rfl

theorem isSome_cauchy_get? (a b : Stream'.Seq ℚ) (n : ℕ) :
    ((cauchy a b).get? n).isSome = decide (PairsTo a b n) := by
  rw [cauchy_get?]
  split <;> simp_all

/-- The Cauchy product is the product of the power series, coefficient by coefficient. -/
theorem coeffAt_cauchy (a b : Stream'.Seq ℚ) (n : ℕ) :
    coeffAt (cauchy a b) n = PowerSeries.coeff n (toPowerSeries a * toPowerSeries b) := by
  rw [PowerSeries.coeff_mul]
  simp only [coeff_toPowerSeries]
  show ((cauchy a b).get? n).getD 0 = _
  rw [cauchy_get?]
  split
  · rfl
  · next hn =>
    -- with no pair of coefficients at `n`, every product on the antidiagonal has a zero factor
    refine (Finset.sum_eq_zero fun p hp => ?_).symm
    have hp : ¬((a.get? p.1).isSome ∧ (b.get? p.2).isSome) := fun h => hn ⟨p, hp, h⟩
    unfold coeffAt
    cases ha : a.get? p.1 <;> cases hb : b.get? p.2 <;> simp_all

/-- With `la` coefficients in `a` and `lb` in `b`, both at least one, a pair sums to `n`
exactly when `n + 1 < la + lb`: the product of the polynomials has `la + lb - 1`
coefficients. -/
theorem pairsTo_iff_of_lengths {a b : Stream'.Seq ℚ} {la lb : ℕ}
    (hla : ∀ i, (a.get? i).isSome ↔ i < la) (hlb : ∀ j, (b.get? j).isSome ↔ j < lb)
    (ha : 0 < la) (hb : 0 < lb) (n : ℕ) : PairsTo a b n ↔ n + 1 < la + lb := by
  simp only [PairsTo, HasAntidiagonal.mem_antidiagonal, hla, hlb]
  constructor
  · rintro ⟨⟨i, j⟩, hij, hi, hj⟩
    dsimp only at hij hi hj
    omega
  · intro hn
    -- the first index as large as `a` allows, the second what is left of `n`
    refine ⟨(min n (la - 1), n - min n (la - 1)), ?_, ?_, ?_⟩ <;> dsimp only <;> omega

/-! ## One output of the product -/

/-- The product after `n` outputs: it keeps the first `n` coefficients of each factor (all of a
factor that has fewer), and `R` holds with the factors having handed out exactly those. -/
def ProductAt (a b : Stream'.Seq ℚ) (R : σ → ℕ → ℕ → Prop) (p : Product ℚ × σ) (n : ℕ) : Prop :=
  p.1 = ⟨(a.take n).toArray, (b.take n).toArray, n⟩ ∧ R p.2 (a.take n).length (b.take n).length

theorem productAt_initial {a b : Stream'.Seq ℚ} {R : σ → ℕ → ℕ → Prop} {s : σ} (hs : R s 0 0) :
    ProductAt a b R (Product.initial, s) 0 :=
  ⟨rfl, by simpa using hs⟩

/-- The first `n + 1` coefficients of each factor give coefficient `n` of the product. -/
theorem convolveAt_take (a b : Stream'.Seq ℚ) (n : ℕ) :
    convolveAt (a.take (n + 1)).toArray (b.take (n + 1)).toArray n =
      ∑ p ∈ antidiagonal n, coeffAt a p.1 * coeffAt b p.2 := by
  rw [Coefficient.convolveAt_eq_sum]
  refine Finset.sum_congr rfl fun p hp => ?_
  rw [HasAntidiagonal.mem_antidiagonal] at hp
  rw [getD_take (by omega), getD_take (by omega)]

section Step

variable {left right : Feed σ ℚ} {a b : Stream'.Seq ℚ} {R : σ → ℕ → ℕ → Prop} {s : σ} {n : ℕ}

/-- After `n` outputs the product goes on exactly when it has coefficient `n`: while a factor
goes on, the other's first coefficient pairs with it; once both have ended, the count of
coefficients read decides. -/
theorem Product.hasNext_after (h : Feed.StreamsBoth left right a b R) (ha : (a.get? 0).isSome)
    (hb : (b.get? 0).isSome) (hs : R s (a.take n).length (b.take n).length) :
    ∃ s', Product.hasNext left right ⟨(a.take n).toArray, (b.take n).toArray, n⟩ s =
      (.ok (decide (PairsTo a b n)), s') ∧ R s' (a.take n).length (b.take n).length := by
  obtain ⟨s₁, hl, hs₁⟩ := (h.left _).hasNext hs
  rw [get?_length_take] at hl
  cases hA : a.get? n with
  | some x =>
    have hn : PairsTo a b n := ⟨(n, 0), by simp, by simp [hA], hb⟩
    exact ⟨s₁, by simp [Product.hasNext, hl, hA, hn], hs₁⟩
  | none =>
    obtain ⟨s₂, hr, hs₂⟩ := (h.right _).hasNext hs₁
    rw [get?_length_take] at hr
    cases hB : b.get? n with
    | some y =>
      have hn : PairsTo a b n := ⟨(0, n), by simp, ha, by simp [hB]⟩
      exact ⟨s₂, by simp [Product.hasNext, hl, hA, hr, hB, hn], hs₂⟩
    | none =>
      -- both factors have ended: all their coefficients are among the first `n`
      have hla := isSome_get?_iff_of_get?_eq_none hA
      have hlb := isSome_get?_iff_of_get?_eq_none hB
      have hn := pairsTo_iff_of_lengths hla hlb ((hla 0).1 ha) ((hlb 0).1 hb) n
      refine ⟨s₂, ?_, hs₂⟩
      simp [Product.hasNext, hl, hA, hr, hB, hn]

/-- Output `n` of the product is coefficient `n` of `cauchy a b`; it reads coefficient `n` of
each factor, if it has one, and keeps it. -/
theorem Product.tryNext_after (h : Feed.StreamsBoth left right a b R) (ha : (a.get? 0).isSome)
    (hb : (b.get? 0).isSome) (hs : R s (a.take n).length (b.take n).length)
    (hn : PairsTo a b n) :
    ∃ s', Product.tryNext left right ⟨(a.take n).toArray, (b.take n).toArray, n⟩ s =
      (.ok (∑ p ∈ antidiagonal n, coeffAt a p.1 * coeffAt b p.2),
        ⟨(a.take (n + 1)).toArray, (b.take (n + 1)).toArray, n + 1⟩, s') ∧
      R s' (a.take (n + 1)).length (b.take (n + 1)).length := by
  obtain ⟨s₁, hh, hs₁⟩ := Product.hasNext_after h ha hb hs
  obtain ⟨s₂, hra, hs₂⟩ := (h.left _).readAt_take hs₁
  obtain ⟨s₃, hrb, hs₃⟩ := (h.right _).readAt_take hs₂
  refine ⟨s₃, ?_, hs₃⟩
  simp only [Product.tryNext, hh, decide_eq_true hn, hra, hrb, convolveAt_take]

/-- **The product streams the Cauchy product.** -/
theorem Product.streams_cauchy (h : Feed.StreamsBoth left right a b R) (ha : (a.get? 0).isSome)
    (hb : (b.get? 0).isSome) : (Product.feed left right).Streams (cauchy a b) (ProductAt a b R) where
  hasNext := by
    rintro ⟨st, s⟩ n ⟨rfl, hs⟩
    obtain ⟨s', hh, hs'⟩ := Product.hasNext_after h ha hb hs
    exact ⟨(_, s'), by simp [Product.feed, hh, isSome_cauchy_get?], rfl, hs'⟩
  tryNext := by
    rintro ⟨st, s⟩ n c ⟨rfl, hs⟩ hc
    rw [cauchy_get?] at hc
    split at hc
    · next hn =>
      obtain ⟨s', ht, hs'⟩ := Product.tryNext_after h ha hb hs hn
      cases hc
      exact ⟨(_, s'), by simp [Product.feed, ht], rfl, hs'⟩
    · cases hc

end Step

/-! ## Two forks of one input -/

/-- Two forks `i` and `i'` of an unbounded hub whose upstream streams `xs`: fork `i` has handed
out the first `c` elements and fork `i'` the first `c'`; each queue holds the rest of what the
upstream has handed out, and the upstream, related by `R`, has handed out as many as the further
fork. -/
def Forks (xs : Stream'.Seq α) (R : σ → ℕ → Prop) (i i' c c' : ℕ) (p : Queues α × σ) : Prop :=
  p.1.capacity = none ∧
  (p.1.queue? i).map Queue.toList = some ((xs.take (max c c')).drop c) ∧
  (p.1.queue? i').map Queue.toList = some ((xs.take (max c c')).drop c') ∧
  R p.2 (max c c')

theorem Forks.comm {xs : Stream'.Seq α} {R : σ → ℕ → Prop} {i i' c c' : ℕ} {p : Queues α × σ} :
    Forks xs R i i' c c' p ↔ Forks xs R i' i c' c p := by
  unfold Forks
  rw [max_comm c c']
  tauto

section Prefixes

variable {xs : Stream'.Seq α}

/-- A sequence with an element at `m` has `m` elements before it. -/
theorem length_take_of_isSome : ∀ {m : ℕ} {xs : Stream'.Seq α}, (xs.get? m).isSome →
    (xs.take m).length = m
  | 0, _, _ => by simp
  | m + 1, xs, h => by
    cases xs using Stream'.Seq.recOn with
    | nil => simp at h
    | cons x rest =>
      rw [Stream'.Seq.take_succ_cons, List.length_cons, length_take_of_isSome (by simpa using h)]

/-- Between a short prefix's end and the length asked for, the sequence has ended. -/
theorem get?_eq_of_length_take_le {c m : ℕ} (hlen : (xs.take m).length ≤ c) (hcm : c ≤ m) :
    xs.get? c = xs.get? m := by
  rcases Nat.eq_or_lt_of_le hcm with rfl | hlt
  · rfl
  · have hend : xs.get? (xs.take m).length = none := by
      rw [get?_length_take]
      by_contra hm
      have := length_take_of_isSome (Option.ne_none_iff_isSome.1 hm)
      omega
    rw [Stream'.Seq.le_stable xs hlen hend, Stream'.Seq.le_stable xs (hlen.trans hcm) hend]

end Prefixes

section Forks

variable {up : Feed σ α} {xs : Stream'.Seq α} {R : σ → ℕ → Prop} {i i' c c' : ℕ}
  {q : Queues α} {s : σ}

/-- A fork with a queued element hands it out, and its count moves past it. -/
theorem Forks.pop (hf : Forks xs R i i' c c' (q, s)) (hii : i ≠ i') {Q rest : Queue α} {a : α}
    (hQ : q.queue? i = some Q) (hp : Q.pop? = some (a, rest)) :
    xs.get? c = some a ∧
      Forks xs R i i' (c + 1) c' ({ q with queues := q.queues.set! i (some rest) }, s) := by
  obtain ⟨hcap, hq, hq', hR⟩ := hf
  dsimp only at hcap hq hq' hR
  have hlist : (xs.take (max c c')).drop c = a :: rest.toList := by
    rw [← Queue.toList_of_pop? hp]
    simpa [hQ] using hq.symm
  -- the queued element is element `c`, so the upstream is ahead of fork `i`
  have hlt : c < (xs.take (max c c')).length := by
    by_contra hge
    rw [List.drop_eq_nil_of_le (Nat.le_of_not_lt hge)] at hlist
    simp at hlist
  have hget : xs.get? c = some a := by
    have hc := congrArg (·[0]?) hlist
    simp only [List.getElem?_drop, Nat.add_zero, Stream'.Seq.getElem?_take] at hc
    rw [if_pos (hlt.trans_le Stream'.Seq.length_take_le)] at hc
    simpa using hc
  have hmax : max (c + 1) c' = max c c' := by
    have := hlt.trans_le Stream'.Seq.length_take_le
    omega
  refine ⟨hget, hcap, ?_, ?_, by rwa [hmax]⟩
  · rw [Queues.queue?_set hQ, if_pos rfl, hmax, ← List.drop_drop, hlist]
    rfl
  · rw [Queues.queue?_set hQ, if_neg (Ne.symm hii), hmax]
    exact hq'

/-- A fork with an empty queue reads the upstream, which is where the fork is, and the element
joins the sibling's queue. -/
theorem Forks.read (hup : up.Streams xs R) (hf : Forks xs R i i' c c' (q, s)) (hii : i ≠ i')
    {Q : Queue α} (hQ : q.queue? i = some Q) (he : Q.toList = []) {a : α}
    (ha : xs.get? c = some a) :
    ∃ s', q.tryNext up i s = (.ok a, q.broadcast i a, s') ∧
      Forks xs R i i' (c + 1) c' (q.broadcast i a, s') := by
  obtain ⟨hcap, hq, hq', hR⟩ := hf
  dsimp only at hcap hq hq' hR
  have hlen : (xs.take (max c c')).length ≤ c := by
    rw [hQ, Option.map_some, he, Option.some.injEq, eq_comm, List.drop_eq_nil_iff] at hq
    exact hq
  -- fork `i` is the further one: had the upstream been ahead, its queue would not be empty
  have hm := get?_eq_of_length_take_le hlen (le_max_left c c')
  have hfull := length_take_of_isSome (m := max c c') (by rw [← hm, ha]; rfl)
  have hc : max c c' = c := by omega
  rw [hc] at hR hq' hfull
  obtain ⟨s₁, hh, hs₁⟩ := hup.hasNext hR
  obtain ⟨s₂, ht, hs₂⟩ := hup.tryNext hs₁ ha
  have hb : q.blocked i = false := by simp [Queues.blocked, hcap]
  rw [ha, Option.isSome_some] at hh
  refine ⟨s₂, by rw [Queues.tryNext_of_not_blocked hQ he hh hb, ht], ?_⟩
  have hmax : max (c + 1) c' = c + 1 := by omega
  have htake : xs.take (c + 1) = xs.take c ++ [a] := by simp [seq_take_succ, ha]
  refine ⟨by simpa using hcap, ?_, ?_, by rwa [hmax]⟩
  · simp [hQ, he, hmax, htake, Stream'.Seq.length_take_le]
  · have hoff : ∀ Q' : Queue α, (q.offer Q' a).toList = Q'.toList ++ [a] := fun Q' =>
      Queues.toList_offer a (by simp [hcap])
    rw [Queues.queue?_broadcast, if_neg (Ne.symm hii), hmax, htake,
      List.drop_append_of_le_length (by omega)]
    obtain ⟨Q', hQ', hl⟩ := Option.map_eq_some_iff.1 hq'
    simp [hQ', hoff, hl]

/-- A fork of an unbounded hub streams what its upstream streams. -/
theorem Feed.Streams.fork (hup : up.Streams xs R) (hii : i ≠ i') (c' : ℕ) :
    (Queues.fork up i).Streams xs fun p c => Forks xs R i i' c c' p where
  hasNext := by
    rintro ⟨q, s⟩ c hf
    obtain ⟨hcap, hq, hq', hR⟩ := hf
    dsimp only at hcap hq hq' hR
    obtain ⟨Q, hQ, hl⟩ := Option.map_eq_some_iff.1 hq
    have hget := Queues.getElem?_of_queue? hQ
    by_cases hsz : Q.size > 0
    · -- the queue holds element `c`
      have hlt : c < (xs.take (max c c')).length := by
        rw [Queue.size_eq_length, hl, List.length_drop] at hsz
        omega
      have hc : (xs.get? c).isSome :=
        (isSome_get?_iff_lt_length_take (hlt.trans_le Stream'.Seq.length_take_le)).2 hlt
      exact ⟨(q, s), by simp [Queues.fork, Queues.hasNext, hget, hsz, hc], hcap, hq, hq', hR⟩
    · -- an empty queue: the upstream answers, and it is where the fork is
      have hlen : (xs.take (max c c')).length ≤ c := by
        rw [Queue.size_eq_length, hl, List.length_drop] at hsz
        omega
      obtain ⟨s', hh, hR'⟩ := hup.hasNext hR
      refine ⟨(q, s'), ?_, hcap, hq, hq', hR'⟩
      simp [Queues.fork, Queues.hasNext, hget, hsz, hh,
        get?_eq_of_length_take_le hlen (le_max_left c c')]
  tryNext := by
    rintro ⟨q, s⟩ c a hf ha
    obtain ⟨Q, hQ, hl⟩ := Option.map_eq_some_iff.1 hf.2.1
    cases hp : Q.pop? with
    | some p =>
      obtain ⟨a', rest⟩ := p
      obtain ⟨hget, hf'⟩ := hf.pop hii hQ hp
      rw [ha, Option.some.injEq] at hget
      subst hget
      exact ⟨_, by simp [Queues.fork, Queues.tryNext_of_pop? hQ hp], hf'⟩
    | none =>
      obtain ⟨s', ht, hf'⟩ := hf.read hup hii hQ ((Queue.pop?_eq_none_iff Q).1 hp) ha
      exact ⟨_, by simp [Queues.fork, ht], hf'⟩

/-- The two forks of an unbounded hub stream the upstream's sequence, each at its own count. -/
theorem Feed.Streams.forks (hup : up.Streams xs R) :
    Feed.StreamsBoth (Queues.fork up 0) (Queues.fork up 1) xs xs
      fun p j k => Forks xs R 0 1 j k p where
  left k := hup.fork (by decide) k
  right j := by
    have hswap : (fun p k => Forks xs R 1 0 k j p) = fun p k => Forks xs R 0 1 j k p := by
      funext p k
      exact propext Forks.comm
    rw [← hswap]
    exact hup.fork (by decide) j

end Forks

/-! ## Squaring -/

/-- A logged input streams what the input streams, its log being what it has handed out. -/
theorem Feed.Streams.logged {f : Feed σ α} {xs : Stream'.Seq α} {R : σ → ℕ → Prop}
    (h : f.Streams xs R) : f.logged.Streams xs fun p k => R p.1 k ∧ p.2 = xs.take k where
  hasNext := by
    rintro ⟨s, log⟩ k ⟨hs, rfl⟩
    obtain ⟨s', hh, hs'⟩ := h.hasNext hs
    exact ⟨(s', _), by simp [hh], hs', rfl⟩
  tryNext := by
    rintro ⟨s, log⟩ k a ⟨hs, rfl⟩ ha
    obtain ⟨s', ht, hs'⟩ := h.tryNext hs ha
    exact ⟨(s', _), Feed.logged_tryNext_ok ht, hs', by simp [seq_take_succ, ha]⟩

/-- A square after `n` outputs over a logged upstream: it keeps the first `n` coefficients read
through each fork, both queues are empty, and the upstream has handed out exactly the first `n`
coefficients, each once, as its log shows. -/
def SquareAt (xs : Stream'.Seq ℚ) (R : σ → ℕ → Prop)
    (p : Product ℚ × Queues ℚ × σ × List ℚ) (n : ℕ) : Prop :=
  p.1 = ⟨(xs.take n).toArray, (xs.take n).toArray, n⟩ ∧ p.2.1.capacity = none ∧
    (p.2.1.queue? 0).map Queue.toList = some [] ∧ (p.2.1.queue? 1).map Queue.toList = some [] ∧
    R p.2.2.1 (xs.take n).length ∧ p.2.2.2 = xs.take n

/-- Taking as many elements as a prefix has gives the prefix. -/
theorem take_length_take (xs : Stream'.Seq α) (n : ℕ) : xs.take (xs.take n).length = xs.take n := by
  apply List.ext_getElem?
  intro i
  simp only [Stream'.Seq.getElem?_take]
  by_cases hi : i < (xs.take n).length
  · rw [if_pos hi, if_pos (hi.trans_le Stream'.Seq.length_take_le)]
  · rw [if_neg hi]
    split
    · exact (Option.not_isSome_iff_eq_none.1 fun hs =>
        hi ((isSome_get?_iff_lt_length_take ‹_›).1 hs)).symm
    · rfl

/-- In lockstep, the product over two forks holds exactly what a square should. -/
theorem squareAt_iff {xs : Stream'.Seq ℚ} {R : σ → ℕ → Prop}
    (p : Product ℚ × Queues ℚ × σ × List ℚ) (n : ℕ) :
    SquareAt xs R p n ↔
      ProductAt xs xs (fun p j k => Forks xs (fun p k => R p.1 k ∧ p.2 = xs.take k) 0 1 j k p) p n := by
  simp [SquareAt, ProductAt, Forks, take_length_take]

/-- The square of a series streams the Cauchy product of the series with itself. -/
theorem square_streams_cauchy {up : Feed σ ℚ} {xs : Stream'.Seq ℚ} {R : σ → ℕ → Prop}
    (hup : up.Streams xs R) (hxs : (xs.get? 0).isSome) :
    (Product.feed (Queues.fork up.logged 0) (Queues.fork up.logged 1)).Streams (cauchy xs xs)
      (SquareAt xs R) := by
  have hrel : SquareAt xs R = ProductAt xs xs
      (fun p j k => Forks xs (fun p k => R p.1 k ∧ p.2 = xs.take k) 0 1 j k p) := by
    funext p n
    exact propext (squareAt_iff p n)
  rw [hrel]
  exact Product.streams_cauchy hup.logged.forks hxs hxs

/-! ## Multiplying -/

/-- A finite sequence of length `m` has its coefficients exactly below `m`. -/
theorem isSome_get?_iff_of_length' {xs : Stream'.Seq α} {m : ℕ} (h : xs.length' = m) (i : ℕ) :
    (xs.get? i).isSome ↔ i < m := by
  rw [← ENat.natCast_lt_natCast, ← h, Stream'.Seq.lt_length'_iff, Option.isSome_iff_exists]
  rfl

/-- After `n` outputs each factor has handed out at most `n` coefficients. -/
theorem ProductAt.reads_le {a b : Stream'.Seq ℚ} {R : σ → ℕ → ℕ → Prop} {p : Product ℚ × σ}
    {n : ℕ} (h : ProductAt a b R p n) : ∃ j ≤ n, ∃ k ≤ n, R p.2 j k :=
  ⟨_, Stream'.Seq.length_take_le, _, Stream'.Seq.length_take_le, h.2⟩

/-- **Multiplying is the lazy Cauchy product.** Over two factors that stream coefficient
sequences `a` and `b`, finite or not, each with a first coefficient, the product streams
`cauchy a b` from its start: output `n` is `∑_{i+j=n} aᵢ bⱼ`, and after `n` outputs each factor
has handed out its first `n` coefficients and no more (`ProductAt`), so producing output `n`
pulls at most `n + 1` from each. Factors with `m` and `k` coefficients give `m + k - 1`. The
square of a series with a first coefficient, its two forks read by the product, streams
`cauchy xs xs` from its start, and the upstream has handed out each coefficient the square has
read exactly once (`SquareAt`). -/
theorem multiply_streams_cauchy {τ : Type} {left right : Feed σ ℚ} {a b : Stream'.Seq ℚ}
    {R : σ → ℕ → ℕ → Prop} (h : Feed.StreamsBoth left right a b R) (ha : (a.get? 0).isSome)
    (hb : (b.get? 0).isSome) {up : Feed τ ℚ} {xs : Stream'.Seq ℚ} {Rup : τ → ℕ → Prop}
    (hup : up.Streams xs Rup) (hxs : (xs.get? 0).isSome) :
    ((Product.feed left right).Streams (cauchy a b) (ProductAt a b R) ∧
      (∀ s, R s 0 0 → ProductAt a b R (Product.initial, s) 0) ∧
      ∀ p n, ProductAt a b R p n → ∃ j ≤ n, ∃ k ≤ n, R p.2 j k) ∧
    (∀ m k : ℕ, a.length' = m → b.length' = k →
      ∀ n, ((cauchy a b).get? n).isSome ↔ n + 1 < m + k) ∧
    ((Product.feed (Queues.fork up.logged 0) (Queues.fork up.logged 1)).Streams (cauchy xs xs)
        (SquareAt xs Rup) ∧
      ∀ u, Rup u 0 → SquareAt xs Rup (Product.initial, Queues.create 2 none, u, []) 0) := by
  refine ⟨⟨Product.streams_cauchy h ha hb, fun s hs => productAt_initial hs,
    fun p n hp => hp.reads_le⟩, ?_, square_streams_cauchy hup hxs, ?_⟩
  · -- finite factors: the pairs of coefficients decide the length
    intro m k hm hk n
    have hla := isSome_get?_iff_of_length' hm
    have hlb := isSome_get?_iff_of_length' hk
    rw [isSome_cauchy_get?, decide_eq_true_iff]
    exact pairsTo_iff_of_lengths hla hlb ((hla 0).1 ha) ((hlb 0).1 hb) n
  · intro u hu
    simp [SquareAt, Product.initial, hu]

/-- `(1 + 2x + 3x²)(4 + 5x)` over two lists, and the square of `1 + x` over a list. -/
theorem multiply_streams_cauchy_lists :
    Feed.StreamsBoth (Feed.ofList.focus Prod.fst fun p s => (s, p.2))
        (Feed.ofList.focus Prod.snd fun p s => (p.1, s)) (.ofList [1, 2, 3]) (.ofList [4, 5])
        (fun p j k => p.1 = [(1 : ℚ), 2, 3].drop j ∧ p.2 = [(4 : ℚ), 5].drop k) ∧
      ((Stream'.Seq.ofList [(1 : ℚ), 2, 3]).get? 0).isSome ∧
      ((Stream'.Seq.ofList [(4 : ℚ), 5]).get? 0).isSome ∧
      Feed.ofList.Streams (.ofList [1, 1]) (fun s k => s = [(1 : ℚ), 1].drop k) ∧
      ((Stream'.Seq.ofList [(1 : ℚ), 1]).get? 0).isSome ∧
      ((Product.feed (Feed.ofList.focus Prod.fst fun p s => (s, p.2))
          (Feed.ofList.focus Prod.snd fun p s => (p.1, s))).Streams
          (cauchy (.ofList [1, 2, 3]) (.ofList [4, 5]))
          (ProductAt (.ofList [1, 2, 3]) (.ofList [4, 5])
            fun p j k => p.1 = [(1 : ℚ), 2, 3].drop j ∧ p.2 = [(4 : ℚ), 5].drop k) ∧
        (∀ s : List ℚ × List ℚ, (s.1 = [1, 2, 3] ∧ s.2 = [4, 5]) →
          ProductAt (.ofList [1, 2, 3]) (.ofList [4, 5])
            (fun p j k => p.1 = [(1 : ℚ), 2, 3].drop j ∧ p.2 = [(4 : ℚ), 5].drop k)
            (Product.initial, s) 0) ∧
        ∀ (p : Product ℚ × (List ℚ × List ℚ)) n, ProductAt (.ofList [1, 2, 3]) (.ofList [4, 5])
            (fun p j k => p.1 = [(1 : ℚ), 2, 3].drop j ∧ p.2 = [(4 : ℚ), 5].drop k) p n →
          ∃ j ≤ n, ∃ k ≤ n, p.2.1 = [(1 : ℚ), 2, 3].drop j ∧ p.2.2 = [(4 : ℚ), 5].drop k) ∧
      (∀ m k : ℕ, (Stream'.Seq.ofList [(1 : ℚ), 2, 3]).length' = m →
        (Stream'.Seq.ofList [(4 : ℚ), 5]).length' = k →
        ∀ n, ((cauchy (.ofList [1, 2, 3]) (.ofList [4, 5])).get? n).isSome ↔ n + 1 < m + k) ∧
      ((Product.feed (Queues.fork Feed.ofList.logged 0) (Queues.fork Feed.ofList.logged 1)).Streams
          (cauchy (.ofList [1, 1]) (.ofList [1, 1]))
          (SquareAt (.ofList [1, 1]) fun s k => s = [(1 : ℚ), 1].drop k) ∧
        ∀ u, u = [(1 : ℚ), 1].drop 0 → SquareAt (.ofList [1, 1]) (fun s k => s = [(1 : ℚ), 1].drop k)
          (Product.initial, Queues.create 2 none, u, []) 0) := by
  have h := Feed.streamsBoth_focus (Feed.yields_ofList.streams [(1 : ℚ), 2, 3])
    (Feed.yields_ofList.streams [(4 : ℚ), 5])
  have hup := Feed.yields_ofList.streams [(1 : ℚ), 1]
  exact ⟨h, rfl, rfl, hup, rfl, multiply_streams_cauchy h rfl rfl hup rfl⟩

end LazySeq
