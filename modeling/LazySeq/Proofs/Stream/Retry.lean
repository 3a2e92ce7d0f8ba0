import LazySeq.Stream.Adapters

/-!
# Retried failures of a pairwise map

An input may fail for a while and then go on: a bounded fork refuses to read past a full sibling
queue and reads on once that queue is drained, its own position untouched. Such an input is
`Feed.flaky`: the elements of a list, and a schedule of marks, one taken by every read; a marked
read fails without moving. A consumer that calls `tryNext` again after every failure collects
`Feed.retrying`.

**Main statement.** `Map2.retrying_flaky`: over two such inputs, the retrying consumer of `Map2`
gets the pairs of the right input's elements with the left input's elements *less those read
in a call where the right input then failed*. Failures of the left input lose nothing, since
the left input is read first; a failure of the right input loses the left element read just
before it, so the pairs after it are shifted by one. The output equals the failure-free one
exactly when no right failure strikes.
-/

namespace LazySeq

variable {σ τ α β γ : Type}

/-! ## Scheduled failures -/

/-- The mark of the next read and the marks after it; past the end of the schedule no read is
marked. -/
def nextMark : List Bool → Bool × List Bool
  | [] => (false, [])
  | m :: ms => (m, ms)

@[simp] theorem nextMark_nil : nextMark [] = (false, []) := rfl

@[simp] theorem nextMark_cons (m : Bool) (ms : List Bool) : nextMark (m :: ms) = (m, ms) := rfl

theorem length_nextMark_snd_le (ms : List Bool) : (nextMark ms).2.length ≤ ms.length := by
  cases ms <;> simp

theorem length_nextMark_snd_of_fst {ms : List Bool} (h : (nextMark ms).1 = true) :
    (nextMark ms).2.length + 1 = ms.length := by
  cases ms with
  | nil => simp at h
  | cons m ms => simp

/-- The elements, each paired with the next mark, less those whose mark is set. -/
def dropMarked : List α → List Bool → List α
  | [], _ => []
  | x :: xs, ms => if (nextMark ms).1 then dropMarked xs (nextMark ms).2 else x :: dropMarked xs (nextMark ms).2

@[simp] theorem dropMarked_nil_right (xs : List α) : dropMarked xs [] = xs := by
  induction xs with
  | nil => rfl
  | cons x xs ih => simp [dropMarked, ih]

namespace Feed

/-- The elements of a list whose reads fail with `e` at the marked reads: every `tryNext` on a
non-empty list takes one mark, and a marked read leaves the elements where they were. -/
def flaky (e : SeqError) : Feed (List α × List Bool) α where
  hasNext := fun (xs, ms) => (.ok !xs.isEmpty, (xs, ms))
  tryNext := fun (xs, ms) =>
    match xs with
    | [] => (Outcome.exhausted, ([], ms))
    | x :: rest => if (nextMark ms).1 then (.error (.fail e), (x :: rest, (nextMark ms).2))
      else (.ok x, (rest, (nextMark ms).2))

/-- An input reading the left part of a pair of states. -/
def onLeft (f : Feed σ α) : Feed (σ × τ) α := f.focus Prod.fst fun p s => (s, p.2)

/-- An input reading the right part of a pair of states. -/
def onRight (f : Feed τ α) : Feed (σ × τ) α := f.focus Prod.snd fun p t => (p.1, t)

/-- What a consumer collects that calls `tryNext` up to `n` times, calling again after every
failure and stopping at the end of the input. -/
def retrying (f : Feed σ α) : Nat → σ → List α
  | 0, _ => []
  | n + 1, s =>
    match f.tryNext s with
    | (.ok a, s) => a :: f.retrying n s
    | (.error (.fail .exhausted), _) => []
    | (.error (.fail _), s) => f.retrying n s
    | (.error (.abort _), _) => []

theorem retrying_succ_of_ok {f : Feed σ α} {n : Nat} {s s' : σ} {a : α}
    (h : f.tryNext s = (.ok a, s')) : f.retrying (n + 1) s = a :: f.retrying n s' := by
  simp [retrying, h]

theorem retrying_succ_of_fail {f : Feed σ α} {n : Nat} {s s' : σ} {e : SeqError}
    (he : e ≠ .exhausted) (h : f.tryNext s = (.error (.fail e), s')) :
    f.retrying (n + 1) s = f.retrying n s' := by
  cases e <;> simp_all [retrying]

theorem retrying_succ_of_exhausted {f : Feed σ α} {n : Nat} {s s' : σ}
    (h : f.tryNext s = (Outcome.exhausted, s')) : f.retrying (n + 1) s = [] := by
  simp [retrying, h, Outcome.exhausted]

end Feed

/-! ## One call of a pairwise map over flaky inputs -/

namespace Map2

variable (g : α → β → γ) (eL eR : SeqError)

/-- The pairwise map over two flaky inputs, its state the two inputs' states. -/
abbrev overFlaky : Feed ((List α × List Bool) × (List β × List Bool)) γ :=
  Map2.feed g (Feed.flaky eL).onLeft (Feed.flaky eR).onRight

theorem tryNext_flaky_nil_left (ms : List Bool) (ys : List β) (ns : List Bool) :
    (overFlaky g eL eR).tryNext (([], ms), (ys, ns)) = (Outcome.exhausted, (([], ms), (ys, ns))) := by
  simp [Map2.feed, Map2.tryNext, Map2.hasNext, Feed.flaky, Feed.onLeft, Feed.onRight, Feed.focus]

theorem tryNext_flaky_nil_right (xs : List α) (ms ns : List Bool) :
    (overFlaky g eL eR).tryNext ((xs, ms), ([], ns)) = (Outcome.exhausted, ((xs, ms), ([], ns))) := by
  cases xs <;> simp [Map2.feed, Map2.tryNext, Map2.hasNext, Feed.flaky, Feed.onLeft, Feed.onRight, Feed.focus]

variable (x : α) (xs : List α) (y : β) (ys : List β) (ms ns : List Bool)

/-- A marked left read fails before the right input is touched. -/
theorem tryNext_flaky_left_fails (h : (nextMark ms).1 = true) :
    (overFlaky g eL eR).tryNext ((x :: xs, ms), (y :: ys, ns)) =
      (.error (.fail eL), ((x :: xs, (nextMark ms).2), (y :: ys, ns))) := by
  simp [Map2.feed, Map2.tryNext, Map2.hasNext, Feed.flaky, Feed.onLeft, Feed.onRight, Feed.focus, h]

/-- A marked right read fails after the left element has been taken: that element is gone. -/
theorem tryNext_flaky_right_fails (hl : (nextMark ms).1 = false) (hr : (nextMark ns).1 = true) :
    (overFlaky g eL eR).tryNext ((x :: xs, ms), (y :: ys, ns)) =
      (.error (.fail eR), ((xs, (nextMark ms).2), (y :: ys, (nextMark ns).2))) := by
  simp [Map2.feed, Map2.tryNext, Map2.hasNext, Feed.flaky, Feed.onLeft, Feed.onRight, Feed.focus, hl, hr]

theorem tryNext_flaky_ok (hl : (nextMark ms).1 = false) (hr : (nextMark ns).1 = false) :
    (overFlaky g eL eR).tryNext ((x :: xs, ms), (y :: ys, ns)) =
      (.ok (g x y), ((xs, (nextMark ms).2), (ys, (nextMark ns).2))) := by
  simp [Map2.feed, Map2.tryNext, Map2.hasNext, Feed.flaky, Feed.onLeft, Feed.onRight, Feed.focus, hl, hr]

/-! ## Runs with retries -/

/-- **Retried failures of a pairwise map.** A consumer that calls again after every failure gets
from the pairwise map of two flaky inputs the pairs of the right elements with the left elements
less those read in a call where the right input failed. The left input's own failures cost
nothing; the budget only has to cover one call per left element and per left mark. -/
theorem retrying_flaky (g : α → β → γ) {eL eR : SeqError} (hL : eL ≠ .exhausted)
    (hR : eR ≠ .exhausted) :
    ∀ (n : Nat) (xs : List α) (ms : List Bool) (ys : List β) (ns : List Bool),
      xs.length + ms.length < n →
      (overFlaky g eL eR).retrying n ((xs, ms), (ys, ns)) = List.zipWith g (dropMarked xs ns) ys
  | 0, _, _, _, _, hn => absurd hn (Nat.not_lt_zero _)
  | n + 1, [], ms, ys, ns, _ => by
    simp [Feed.retrying_succ_of_exhausted (tryNext_flaky_nil_left g eL eR ms ys ns), dropMarked]
  | n + 1, x :: xs, ms, [], ns, _ => by
    simp [Feed.retrying_succ_of_exhausted (tryNext_flaky_nil_right g eL eR (x :: xs) ms ns)]
  | n + 1, x :: xs, ms, y :: ys, ns, hn => by
    have hms := length_nextMark_snd_le ms
    cases hl : (nextMark ms).1 with
    | true =>
      -- the left read fails and only its mark is used up
      have hlen := length_nextMark_snd_of_fst hl
      rw [Feed.retrying_succ_of_fail hL (tryNext_flaky_left_fails g eL eR x xs y ys ms ns hl)]
      exact retrying_flaky g hL hR n (x :: xs) _ (y :: ys) ns (by simp at hn ⊢; omega)
    | false =>
      have ih := retrying_flaky g hL hR n xs (nextMark ms).2
      cases hr : (nextMark ns).1 with
      | true =>
        -- the right read fails: `x` was read and is lost
        rw [Feed.retrying_succ_of_fail hR (tryNext_flaky_right_fails g eL eR x xs y ys ms ns hl hr),
          ih (y :: ys) _ (by simp at hn; omega)]
        simp [dropMarked, hr]
      | false =>
        rw [Feed.retrying_succ_of_ok (tryNext_flaky_ok g eL eR x xs y ys ms ns hl hr),
          ih ys _ (by simp at hn; omega)]
        simp [dropMarked, hr]

/-- The second call's right read fails (a blocked fork): the left element `2` is lost, and `3`
is paired with `20` where the failure-free run pairs `2` with `20` and `3` with `30`. -/
theorem retrying_flaky_loses_second_left :
    SeqError.bufferOverflow 1 ≠ .exhausted ∧
      (overFlaky (α := Nat) (β := Nat) Prod.mk (.bufferOverflow 1) (.bufferOverflow 1)).retrying 4
        (([1, 2, 3], []), ([10, 20, 30], [false, true])) = [(1, 10), (3, 20)] :=
  ⟨by decide, by
    rw [retrying_flaky Prod.mk (by decide) (by decide) 4 [1, 2, 3] [] [10, 20, 30] [false, true]
      (by decide)]
    rfl⟩

end Map2

end LazySeq
