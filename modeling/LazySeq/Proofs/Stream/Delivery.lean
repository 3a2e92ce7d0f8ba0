import LazySeq.Stream.Hub

/-!
# Every fork sees every element once

The forks of a hub are called in any order: `hasNext`, `tryNext` and `drop`, each on a fork that
still exists. `Queues.run` answers such a schedule and lists every call made with its reply. To
speak of the elements the upstream hands out, the upstream is *logged* (`Feed.logged`): a log kept
beside its state grows by every element its `tryNext` hands out. Logging changes no reply
(`run_logged`).

The invariant `Delivered` ties the queues to the log: each fork has handed out a prefix of the
log, a live queue holds exactly the rest, a queue of a bounded hub stays within the capacity, and
some fork has handed out the whole log. `Delivered.call` shows that one call keeps it and
`Delivered.run` that a whole schedule does.

**Main statements.**
* `run_delivers_pulled`: after any schedule, each fork has handed out, in order, a prefix of the
  elements the upstream handed out; each live queue holds exactly the rest; a fork's queue is gone
  exactly when the fork was dropped; and some fork has handed out all of them, so the upstream
  is read once per element, and only as far as the furthest fork.
* `bounded_tryNext_refuses_atomically`: in a bounded hub every live queue stays within the
  capacity and never refuses an element; a fork fails with `bufferOverflow` exactly when its
  queue is empty, the upstream has a next element and either another live queue is full or the
  upstream itself fails so; a full sibling's refusal changes nothing, and once no other live
  queue is full the same call reads the upstream. `overflow_outlasts_one_sibling` shows that one
  sibling's read is not enough while another is full, and that a hub over a blocked fork fails
  although no sibling of its own is full.
-/

namespace LazySeq

variable {σ α : Type}

/-! ## Queues as lists -/

namespace Queue

theorem pop?_eq_none_iff (q : Queue α) : q.pop? = none ↔ q.toList = [] := by
  have h := pop?_toList q
  cases hq : q.toList <;> cases hp : q.pop? <;> simp_all

theorem toList_of_pop? {q rest : Queue α} {a : α} (h : q.pop? = some (a, rest)) :
    q.toList = a :: rest.toList := by
  have hm := pop?_toList q
  rw [h] at hm
  cases hq : q.toList <;> simp_all

@[simp] theorem size_push (q : Queue α) (a : α) : (q.push a).size = q.size + 1 := rfl

end Queue

namespace Queues

/-- The queue of fork `i`, unless the fork was dropped or never existed. -/
def queue? (q : Queues α) (i : Nat) : Option (Queue α) := (q.queues[i]?).join

/-- Fork `i` exists and was not dropped: only such a fork can be called. -/
def live (q : Queues α) (i : Nat) : Bool := (q.queue? i).isSome

theorem getElem?_of_queue? {q : Queues α} {i : Nat} {queue : Queue α}
    (h : q.queue? i = some queue) : q.queues[i]? = some (some queue) := by
  simpa [queue?, Option.join_eq_some_iff] using h

theorem lt_size_of_queue? {q : Queues α} {i : Nat} {queue : Queue α}
    (h : q.queue? i = some queue) : i < q.queues.size := by
  have h' := getElem?_of_queue? h
  rw [Array.getElem?_eq_some_iff] at h'
  exact h'.1

@[simp] theorem queue?_create (n : Nat) (capacity : Option Nat) (i : Nat) :
    (create n capacity : Queues α).queue? i = if i < n then some Queue.empty else none := by
  simp only [queue?, create, Array.getElem?_replicate]
  split <;> rfl

@[simp] theorem capacity_create (n : Nat) (capacity : Option Nat) :
    (create n capacity : Queues α).capacity = capacity := rfl

@[simp] theorem size_create (n : Nat) (capacity : Option Nat) :
    (create n capacity : Queues α).queues.size = n := by
  simp [create]

@[simp] theorem queue?_drop (q : Queues α) (i j : Nat) :
    (q.drop j).queue? i = if i = j then none else q.queue? i := by
  simp only [queue?, drop, Array.set!_eq_setIfInBounds, Array.getElem?_setIfInBounds]
  by_cases h : i = j
  · subst h
    by_cases hi : i < q.queues.size <;> simp [hi]
  · simp [h, Ne.symm h]

@[simp] theorem capacity_drop (q : Queues α) (j : Nat) : (q.drop j).capacity = q.capacity := rfl

@[simp] theorem size_drop (q : Queues α) (j : Nat) : (q.drop j).queues.size = q.queues.size := by
  simp [drop]

@[simp] theorem queue?_broadcast (q : Queues α) (i j : Nat) (a : α) :
    (q.broadcast i a).queue? j = if j = i then q.queue? j else (q.queue? j).map (q.offer · a) := by
  simp only [queue?, broadcast, Array.getElem?_mapIdx]
  cases q.queues[j]? with
  | none => simp
  | some queue => by_cases h : j = i <;> simp [h]

@[simp] theorem capacity_broadcast (q : Queues α) (i : Nat) (a : α) :
    (q.broadcast i a).capacity = q.capacity := rfl

@[simp] theorem size_broadcast (q : Queues α) (i : Nat) (a : α) :
    (q.broadcast i a).queues.size = q.queues.size := by
  simp [broadcast]

/-- The queues with fork `i`'s queue replaced, as `tryNext` leaves them after taking from it. -/
theorem queue?_set {q : Queues α} {i : Nat} {queue : Queue α} (h : q.queue? i = some queue)
    (r : Queue α) (j : Nat) :
    ({ q with queues := q.queues.set! i (some r) } : Queues α).queue? j =
      if j = i then some r else q.queue? j := by
  have hi := lt_size_of_queue? h
  simp only [queue?, Array.set!_eq_setIfInBounds, Array.getElem?_setIfInBounds, hi]
  by_cases hj : j = i
  · simp [hj]
  · simp [hj, Ne.symm hj]

/-- An offered element is appended when the queue has room, and refused otherwise. -/
theorem toList_offer {q : Queues α} {queue : Queue α} (a : α)
    (h : ∀ cap, q.capacity = some cap → queue.size < cap) :
    (q.offer queue a).toList = queue.toList ++ [a] := by
  unfold offer
  cases hc : q.capacity with
  | none => simp
  | some cap => simp [h cap hc]

theorem size_offer_le {q : Queues α} {queue : Queue α} {cap : Nat} (a : α)
    (hc : q.capacity = some cap) (h : queue.size ≤ cap) : (q.offer queue a).size ≤ cap := by
  simp only [offer, hc]
  split
  · simp only [Queue.size_push]; omega
  · exact h

/-- A fork is blocked exactly when the hub is bounded and another live queue is full. -/
theorem blocked_eq_true_iff (q : Queues α) (i : Nat) :
    q.blocked i = true ↔ ∃ cap, q.capacity = some cap ∧
      ∃ j queue, j ≠ i ∧ q.queue? j = some queue ∧ queue.size = cap := by
  unfold blocked
  cases hc : q.capacity with
  | none => simp
  | some cap =>
    simp only [List.any_eq_true, List.mem_zipIdx_iff_getElem?, Array.getElem?_toList,
      Bool.and_eq_true, bne_iff_ne, ne_eq, Option.some.injEq, exists_eq_left', queue?,
      Option.join_eq_some_iff]
    constructor
    · rintro ⟨⟨queue, j⟩, hj, hne, hfull⟩
      cases queue with
      | none => simp at hfull
      | some queue => exact ⟨j, queue, hne, hj, by simpa using hfull⟩
    · rintro ⟨j, queue, hne, hj, hfull⟩
      exact ⟨(some queue, j), hj, hne, by simp [hfull]⟩

/-- With the capacity known, a fork is blocked exactly when another live queue is full. -/
theorem blocked_iff_full {q : Queues α} {i cap : Nat} (hc : q.capacity = some cap) :
    q.blocked i = true ↔ ∃ j other, j ≠ i ∧ q.queue? j = some other ∧ other.size = cap := by
  rw [blocked_eq_true_iff, hc]
  constructor
  · rintro ⟨c, hcap, hfull⟩
    cases hcap
    exact hfull
  · exact fun hfull => ⟨cap, rfl, hfull⟩

/-! ## One call of a fork -/

section Calls

variable {up : Feed σ α} {q : Queues α} {i : Nat} {s : σ} {queue : Queue α}

/-- A fork with a queued element hands it out and touches nothing else. -/
theorem tryNext_of_pop? {rest : Queue α} {a : α} (hq : q.queue? i = some queue)
    (hp : queue.pop? = some (a, rest)) :
    q.tryNext up i s = (.ok a, { q with queues := q.queues.set! i (some rest) }, s) := by
  simp [tryNext, getElem?_of_queue? hq, hp]

variable (hq : q.queue? i = some queue) (he : queue.toList = [])
include hq he

theorem own_empty : (q.queues[i]?).bind (·.bind Queue.pop?) = none := by
  simp [getElem?_of_queue? hq, (Queue.pop?_eq_none_iff queue).2 he]

theorem tryNext_of_hasNext_error {h : Halt} {s' : σ} (hh : up.hasNext s = (.error h, s')) :
    q.tryNext up i s = (.error h, q, s') := by
  simp [tryNext, own_empty hq he, hh]

theorem tryNext_of_hasNext_false {s' : σ} (hh : up.hasNext s = (.ok false, s')) :
    q.tryNext up i s = (Outcome.exhausted, q, s') := by
  simp [tryNext, own_empty hq he, hh]

/-- A blocked fork fails with `bufferOverflow`: no queue changes, and the upstream was only asked
whether it has a next element. -/
theorem tryNext_of_blocked {cap : Nat} {s' : σ} (hh : up.hasNext s = (.ok true, s'))
    (hb : q.blocked i = true) (hc : q.capacity = some cap) :
    q.tryNext up i s = (.error (.fail (.bufferOverflow cap)), q, s') := by
  simp [tryNext, own_empty hq he, hh, hb, hc]

/-- A fork that is not blocked reads the upstream once and offers the element to its siblings. -/
theorem tryNext_of_not_blocked {s' : σ} (hh : up.hasNext s = (.ok true, s'))
    (hb : q.blocked i = false) :
    q.tryNext up i s =
      match up.tryNext s' with
      | (.ok a, s) => (.ok a, q.broadcast i a, s)
      | (.error h, s) => (.error h, q, s) := by
  rcases ht : up.tryNext s' with ⟨h | a, s''⟩ <;> simp [tryNext, own_empty hq he, hh, hb, ht]

end Calls

/-- Everything a `tryNext` on a live fork can do: hand out the head of its queue; read the
upstream once and offer the element to the other queues; or fail and change no queue, the
upstream having been asked `hasNext`, and perhaps `tryNext` in vain. -/
theorem tryNext_cases {up : Feed σ α} {q q' : Queues α} {i : Nat} {s s' : σ} {queue : Queue α}
    {r : Outcome α} (hq : q.queue? i = some queue) (h : q.tryNext up i s = (r, q', s')) :
    (∃ a rest, queue.pop? = some (a, rest) ∧ r = .ok a ∧
      q' = { q with queues := q.queues.set! i (some rest) } ∧ s' = s) ∨
    (queue.toList = [] ∧ q.blocked i = false ∧ ∃ a s₁, up.hasNext s = (.ok true, s₁) ∧
      up.tryNext s₁ = (.ok a, s') ∧ r = .ok a ∧ q' = q.broadcast i a) ∨
    (queue.toList = [] ∧ q' = q ∧ (∀ a, r ≠ .ok a) ∧
      ((up.hasNext s).2 = s' ∨
        ∃ s₁ e, up.hasNext s = (.ok true, s₁) ∧ up.tryNext s₁ = (.error e, s'))) := by
  cases hp : queue.pop? with
  | some p =>
    obtain ⟨a, rest⟩ := p
    rw [tryNext_of_pop? hq hp, Prod.mk.injEq, Prod.mk.injEq] at h
    obtain ⟨rfl, rfl, rfl⟩ := h
    exact .inl ⟨a, rest, rfl, rfl, rfl, rfl⟩
  | none =>
    have he := (Queue.pop?_eq_none_iff queue).1 hp
    right
    rcases hh : up.hasNext s with ⟨e | b, s₁⟩
    · rw [tryNext_of_hasNext_error hq he hh, Prod.mk.injEq, Prod.mk.injEq] at h
      obtain ⟨rfl, rfl, rfl⟩ := h
      exact .inr ⟨he, rfl, by simp, .inl (by simp)⟩
    cases b with
    | false =>
      rw [tryNext_of_hasNext_false hq he hh, Prod.mk.injEq, Prod.mk.injEq] at h
      obtain ⟨rfl, rfl, rfl⟩ := h
      exact .inr ⟨he, rfl, by simp [Outcome.exhausted], .inl (by simp)⟩
    | true =>
      cases hb : q.blocked i with
      | true =>
        obtain ⟨cap, hc, -⟩ := (blocked_eq_true_iff q i).1 hb
        rw [tryNext_of_blocked hq he hh hb hc, Prod.mk.injEq, Prod.mk.injEq] at h
        obtain ⟨rfl, rfl, rfl⟩ := h
        exact .inr ⟨he, rfl, by simp, .inl (by simp)⟩
      | false =>
        rw [tryNext_of_not_blocked hq he hh hb] at h
        rcases ht : up.tryNext s₁ with ⟨e | a, s₂⟩ <;> rw [ht, Prod.mk.injEq, Prod.mk.injEq] at h
        · obtain ⟨rfl, rfl, rfl⟩ := h
          exact .inr ⟨he, rfl, by simp, .inr ⟨s₁, e, rfl, ht⟩⟩
        · obtain ⟨rfl, rfl, rfl⟩ := h
          exact .inl ⟨he, rfl, a, s₁, rfl, ht, rfl, rfl⟩

end Queues

/-! ## Logged inputs -/

namespace Feed

/-- The input with a log beside its state: every element `tryNext` hands out is appended to it. -/
def logged (f : Feed σ α) : Feed (σ × List α) α where
  hasNext := fun (s, log) => let (r, s) := f.hasNext s; (r, (s, log))
  tryNext := fun (s, log) =>
    match f.tryNext s with
    | (.ok a, s) => (.ok a, (s, log ++ [a]))
    | (.error h, s) => (.error h, (s, log))

variable {f : Feed σ α} {s s' : σ} {log : List α}

@[simp] theorem logged_hasNext (f : Feed σ α) (s : σ) (log : List α) :
    f.logged.hasNext (s, log) = ((f.hasNext s).1, ((f.hasNext s).2, log)) := rfl

theorem logged_tryNext_ok {a : α} (h : f.tryNext s = (.ok a, s')) :
    f.logged.tryNext (s, log) = (.ok a, (s', log ++ [a])) := by
  simp [logged, h]

theorem logged_tryNext_error {e : Halt} (h : f.tryNext s = (.error e, s')) :
    f.logged.tryNext (s, log) = (.error e, (s', log)) := by
  simp [logged, h]

end Feed

/-! ## Schedules of calls -/

/-- A call on one fork of a hub. -/
inductive ForkCall where
  | hasNext (i : Nat)
  | tryNext (i : Nat)
  | drop (i : Nat)
deriving DecidableEq

/-- The fork a call is made on. -/
def ForkCall.fork : ForkCall → Nat
  | hasNext i | tryNext i | drop i => i

@[simp] theorem ForkCall.fork_hasNext (i : Nat) : (ForkCall.hasNext i).fork = i := rfl
@[simp] theorem ForkCall.fork_tryNext (i : Nat) : (ForkCall.tryNext i).fork = i := rfl
@[simp] theorem ForkCall.fork_drop (i : Nat) : (ForkCall.drop i).fork = i := rfl

/-- The reply to a call on a fork. -/
inductive ForkReply (α : Type) where
  | hasNext (r : Outcome Bool)
  | tryNext (r : Outcome α)
  | dropped

/-- The element a call handed to fork `i`: the value of a successful `tryNext` on that fork. -/
def handedTo (i : Nat) : ForkCall × ForkReply α → Option α
  | (.tryNext j, .tryNext (.ok a)) => if j = i then some a else none
  | _ => none

/-- The elements fork `i` was handed, in order, in a list of calls with their replies. -/
def delivered (i : Nat) (replies : List (ForkCall × ForkReply α)) : List α :=
  replies.filterMap (handedTo i)

@[simp] theorem delivered_nil (i : Nat) : delivered i ([] : List (ForkCall × ForkReply α)) = [] :=
  rfl

@[simp] theorem toList_handedTo_tryNext_ok (i j : Nat) (a : α) :
    (handedTo j (ForkCall.tryNext i, ForkReply.tryNext (.ok a))).toList =
      if i = j then [a] else [] := by
  by_cases h : i = j <;> simp [handedTo, h]

theorem delivered_cons (i : Nat) (x : ForkCall × ForkReply α) (rest : List (ForkCall × ForkReply α)) :
    delivered i (x :: rest) = (handedTo i x).toList ++ delivered i rest := by
  simp only [delivered, List.filterMap_cons]
  cases handedTo i x <;> rfl

namespace Queues

/-- Answers one call on the hub over `up`. -/
def call (up : Feed σ α) (q : Queues α) (s : σ) : ForkCall → ForkReply α × Queues α × σ
  | .hasNext i => let (r, s) := q.hasNext up i s; (.hasNext r, q, s)
  | .tryNext i => let (r, q, s) := q.tryNext up i s; (.tryNext r, q, s)
  | .drop i => (.dropped, q.drop i, s)

/-- Answers a schedule of calls in order and lists each call made with its reply. A call on a
fork that was dropped, or never existed, cannot be made and is passed over. -/
def run (up : Feed σ α) :
    List ForkCall → Queues α → σ → List (ForkCall × ForkReply α) × Queues α × σ
  | [], q, s => ([], q, s)
  | c :: cs, q, s =>
    if q.live c.fork then
      let (r, q, s) := q.call up s c
      let (replies, q, s) := run up cs q s
      ((c, r) :: replies, q, s)
    else run up cs q s

theorem run_cons_of_live {up : Feed σ α} {c : ForkCall} {cs : List ForkCall} {q : Queues α}
    {s : σ} (hl : q.live c.fork = true) :
    q.run up (c :: cs) s =
      ((c, (q.call up s c).1) :: ((q.call up s c).2.1.run up cs (q.call up s c).2.2).1,
        ((q.call up s c).2.1.run up cs (q.call up s c).2.2).2) := by
  simp [run, hl]

theorem run_cons_of_not_live {up : Feed σ α} {c : ForkCall} {cs : List ForkCall} {q : Queues α}
    {s : σ} (hl : q.live c.fork = false) : q.run up (c :: cs) s = q.run up cs s := by
  simp [run, hl]

theorem exists_queue?_of_live {q : Queues α} {i : Nat} (hl : q.live i = true) :
    ∃ queue, q.queue? i = some queue := Option.isSome_iff_exists.1 hl

/-- A call keeps every other fork's queue in place, and removes only the queue of a fork it
drops. -/
theorem queue?_call_eq_none_iff {up : Feed σ α} {q : Queues α} {s : σ} {c : ForkCall}
    (hl : q.live c.fork = true) (j : Nat) :
    (q.call up s c).2.1.queue? j = none ↔ q.queue? j = none ∨ c = .drop j := by
  obtain ⟨queue, hq⟩ := exists_queue?_of_live hl
  cases c with
  | hasNext i => simp [call]
  | drop i => by_cases h : j = i <;> simp [call, h, eq_comm]
  | tryNext i =>
    simp only [ForkCall.fork_tryNext] at hq
    simp only [call, reduceCtorEq, or_false]
    rcases hr : q.tryNext up i s with ⟨r, q', s'⟩
    rcases tryNext_cases hq hr with ⟨a, rest, -, -, rfl, -⟩ | ⟨-, -, a, -, -, -, -, rfl⟩ | ⟨-, rfl, -⟩
    · rw [queue?_set hq]
      by_cases h : j = i
      · subst h; simp [hq]
      · simp [h]
    · by_cases h : j = i <;> simp [h]
    · rfl

/-- A fork's queue is gone after a schedule exactly when it was gone before or the schedule
dropped the fork. -/
theorem queue?_run_eq_none_iff (up : Feed σ α) (j : Nat) :
    ∀ (calls : List ForkCall) (q : Queues α) (s : σ),
      (q.run up calls s).2.1.queue? j = none ↔
        q.queue? j = none ∨ ForkCall.drop j ∈ (q.run up calls s).1.map Prod.fst
  | [], q, s => by simp [run]
  | c :: cs, q, s => by
    cases hl : q.live c.fork with
    | false =>
      rw [run_cons_of_not_live hl]
      exact queue?_run_eq_none_iff up j cs q s
    | true =>
      rw [run_cons_of_live hl, List.map_cons, List.mem_cons,
        queue?_run_eq_none_iff up j cs, queue?_call_eq_none_iff hl j]
      constructor
      · rintro ((h | rfl) | h)
        · exact .inl h
        · exact .inr (.inl rfl)
        · exact .inr (.inr h)
      · rintro (h | h | h)
        · exact .inl (.inl h)
        · exact .inl (.inr h.symm)
        · exact .inr h

theorem capacity_call {up : Feed σ α} {q : Queues α} {s : σ} {c : ForkCall}
    (hl : q.live c.fork = true) : (q.call up s c).2.1.capacity = q.capacity := by
  obtain ⟨queue, hq⟩ := exists_queue?_of_live hl
  cases c with
  | hasNext i => rfl
  | drop i => rfl
  | tryNext i =>
    simp only [ForkCall.fork_tryNext] at hq
    simp only [call]
    rcases hr : q.tryNext up i s with ⟨r, q', s'⟩
    rcases tryNext_cases hq hr with ⟨a, rest, -, -, rfl, -⟩ | ⟨-, -, a, -, -, -, -, rfl⟩ | ⟨-, rfl, -⟩
      <;> rfl

/-- Calls never change the capacity of a hub. -/
theorem capacity_run (up : Feed σ α) :
    ∀ (calls : List ForkCall) (q : Queues α) (s : σ), (q.run up calls s).2.1.capacity = q.capacity
  | [], q, s => rfl
  | c :: cs, q, s => by
    cases hl : q.live c.fork with
    | false => rw [run_cons_of_not_live hl, capacity_run up cs q s]
    | true => rw [run_cons_of_live hl, capacity_run up cs, capacity_call hl]

/-! ## Logging changes no reply -/

theorem hasNext_logged (up : Feed σ α) (q : Queues α) (i : Nat) (s : σ) (log : List α) :
    q.hasNext up.logged i (s, log) = ((q.hasNext up i s).1, ((q.hasNext up i s).2, log)) := by
  unfold hasNext
  split
  · split <;> rfl
  · rfl

theorem tryNext_logged (up : Feed σ α) (q : Queues α) (i : Nat) (s : σ) (log : List α) :
    ((q.tryNext up.logged i (s, log)).1, (q.tryNext up.logged i (s, log)).2.1,
      (q.tryNext up.logged i (s, log)).2.2.1) = q.tryNext up i s := by
  unfold tryNext
  split
  · rfl
  · rcases hh : up.hasNext s with ⟨e | b, s₁⟩
    · simp [hh]
    cases b with
    | false => simp [hh]
    | true =>
      simp only [Feed.logged_hasNext, hh]
      split
      · split <;> rfl
      · rcases ht : up.tryNext s₁ with ⟨e | a, s₂⟩
        · simp [Feed.logged_tryNext_error ht]
        · simp [Feed.logged_tryNext_ok ht]

theorem call_logged (up : Feed σ α) (q : Queues α) (s : σ) (log : List α) (c : ForkCall) :
    ((q.call up.logged (s, log) c).1, (q.call up.logged (s, log) c).2.1,
      (q.call up.logged (s, log) c).2.2.1) = q.call up s c := by
  cases c with
  | hasNext i => simp [call, hasNext_logged]
  | drop i => rfl
  | tryNext i =>
    have h := tryNext_logged up q i s log
    simp only [call]
    rw [← h]

/-- Running a schedule over the logged upstream answers exactly what running it over the
upstream answers; the log only watches. -/
theorem run_logged (up : Feed σ α) :
    ∀ (calls : List ForkCall) (q : Queues α) (s : σ) (log : List α),
      ((q.run up.logged calls (s, log)).1, (q.run up.logged calls (s, log)).2.1,
        (q.run up.logged calls (s, log)).2.2.1) = q.run up calls s
  | [], q, s, log => rfl
  | c :: cs, q, s, log => by
    have hc := call_logged up q s log c
    rcases hr : q.call up.logged (s, log) c with ⟨r, q', s', log'⟩
    rw [hr] at hc
    cases hl : q.live c.fork with
    | false => rw [run_cons_of_not_live hl, run_cons_of_not_live hl, run_logged up cs q s log]
    | true =>
      rw [run_cons_of_live hl, run_cons_of_live hl, hr, ← hc, ← run_logged up cs q' s' log']

end Queues

/-! ## What the queues keep -/

/-- What the queues of a hub over a logged upstream keep, `pulled` being the log and `out i` the
elements fork `i` has handed out: every fork has handed out a prefix of the log, a live queue
holds exactly the rest, a queue of a bounded hub holds at most the capacity, and some fork has
handed out the whole log. -/
structure Delivered (n : Nat) (q : Queues α) (pulled : List α) (out : Nat → List α) : Prop where
  size_eq : q.queues.size = n
  append_queue : ∀ i queue, q.queue? i = some queue → out i ++ queue.toList = pulled
  prefix_of_dropped : ∀ i < n, q.queue? i = none → out i <+: pulled
  size_le : ∀ cap, q.capacity = some cap → ∀ i queue, q.queue? i = some queue → queue.size ≤ cap
  furthest : pulled = [] ∨ ∃ i < n, out i = pulled

namespace Delivered

variable {n : Nat} {q : Queues α} {pulled : List α} {out : Nat → List α}

theorem create (n : Nat) (capacity : Option Nat) :
    Delivered n (Queues.create n capacity : Queues α) [] fun _ => [] where
  size_eq := by simp
  append_queue i queue h := by
    simp only [Queues.queue?_create] at h
    split at h
    · cases h; rfl
    · cases h
  prefix_of_dropped _ _ _ := List.nil_prefix
  size_le cap hc i queue h := by
    simp only [Queues.queue?_create] at h
    split at h
    · cases h; exact Nat.zero_le _
    · cases h
  furthest := .inl rfl

theorem out_prefix (hd : Delivered n q pulled out) {i : Nat} (hi : i < n) : out i <+: pulled := by
  cases h : q.queue? i with
  | none => exact hd.prefix_of_dropped i hi h
  | some queue => exact ⟨queue.toList, hd.append_queue i queue h⟩

theorem lt_of_queue? (hd : Delivered n q pulled out) {i : Nat} {queue : Queue α}
    (h : q.queue? i = some queue) : i < n :=
  hd.size_eq ▸ Queues.lt_size_of_queue? h

/-- Handing out the head of a queue moves one element from the queue to what its fork handed
out. -/
theorem pop (hd : Delivered n q pulled out) {i : Nat} {queue rest : Queue α} {a : α}
    (hq : q.queue? i = some queue) (hp : queue.pop? = some (a, rest)) :
    Delivered n { q with queues := q.queues.set! i (some rest) } pulled
      (fun j => out j ++ if i = j then [a] else []) := by
  have hlist := Queue.toList_of_pop? hp
  have hout := hd.append_queue i queue hq
  refine ⟨by simp [hd.size_eq.symm], ?_, ?_, ?_, ?_⟩
  · -- append_queue
    intro j queue' h
    rw [Queues.queue?_set hq] at h
    by_cases hj : j = i
    · subst hj
      simp only [if_pos, Option.some.injEq] at h
      subst h
      simpa [hlist] using hout
    · simp only [hj, if_false] at h
      simpa [Ne.symm hj] using hd.append_queue j queue' h
  · -- prefix_of_dropped
    intro j hj h
    rw [Queues.queue?_set hq] at h
    by_cases hji : j = i
    · simp [hji] at h
    · simp only [hji, if_false] at h
      simpa [Ne.symm hji] using hd.prefix_of_dropped j hj h
  · -- size_le
    intro cap hc j queue' h
    rw [Queues.queue?_set hq] at h
    by_cases hj : j = i
    · subst hj
      simp only [if_pos, Option.some.injEq] at h
      subst h
      have hle := hd.size_le cap hc j queue hq
      have hsize : queue.size = rest.size + 1 := by
        simp [Queue.size_eq_length, hlist]
      omega
    · simp only [hj, if_false] at h
      exact hd.size_le cap hc j queue' h
  · -- furthest
    obtain hnil | ⟨k, hk, hok⟩ := hd.furthest
    · exact .inl hnil
    refine .inr ⟨k, hk, ?_⟩
    by_cases hki : i = k
    · -- the furthest fork has an empty queue, so it is not the one that read
      subst hki
      rw [hok, hlist] at hout
      simp at hout
    · simpa [hki] using hok

/-- Reading the upstream for a fork with an empty queue that is not blocked appends the element
to the log, hands it to that fork, and every other live queue takes it: none is full. -/
theorem read (hd : Delivered n q pulled out) {i : Nat} {queue : Queue α}
    (hq : q.queue? i = some queue) (he : queue.toList = []) (hb : q.blocked i = false) (a : α) :
    Delivered n (q.broadcast i a) (pulled ++ [a]) (fun j => out j ++ if i = j then [a] else []) := by
  have hout : out i = pulled := by simpa [he] using hd.append_queue i queue hq
  -- no other live queue is full, and none holds more than the capacity
  have hroom : ∀ j other, j ≠ i → q.queue? j = some other →
      ∀ cap, q.capacity = some cap → other.size < cap := by
    intro j other hj ho cap hc
    have hle := hd.size_le cap hc j other ho
    have hne : other.size ≠ cap := fun hfull => by
      simpa [hb] using (Queues.blocked_iff_full hc).2 ⟨j, other, hj, ho, hfull⟩
    omega
  refine ⟨by simp [hd.size_eq], ?_, ?_, ?_, .inr ⟨i, hd.lt_of_queue? hq, by simp [hout]⟩⟩
  · -- append_queue
    intro j queue' h
    rw [Queues.queue?_broadcast] at h
    by_cases hj : j = i
    · subst hj
      simp only [if_pos, hq, Option.some.injEq] at h
      subst h
      simp [hout, he]
    · simp only [hj, if_false, Option.map_eq_some_iff] at h
      obtain ⟨other, ho, rfl⟩ := h
      rw [Queues.toList_offer a (hroom j other hj ho)]
      simp only [Ne.symm hj, if_false, List.append_nil, ← List.append_assoc,
        hd.append_queue j other ho]
  · -- prefix_of_dropped
    intro j hj h
    rw [Queues.queue?_broadcast] at h
    by_cases hji : j = i
    · simp [hji, hq] at h
    · simp only [hji, if_false, Option.map_eq_none_iff] at h
      simpa [Ne.symm hji] using (hd.prefix_of_dropped j hj h).trans (List.prefix_append _ _)
  · -- size_le
    intro cap hc j queue' h
    rw [Queues.queue?_broadcast] at h
    by_cases hj : j = i
    · subst hj
      simp only [if_pos, hq, Option.some.injEq] at h
      subst h
      exact hd.size_le cap hc j queue hq
    · simp only [hj, if_false, Option.map_eq_some_iff] at h
      obtain ⟨other, ho, rfl⟩ := h
      exact Queues.size_offer_le a (by simpa using hc) (hd.size_le cap hc j other ho)

theorem drop (hd : Delivered n q pulled out) (j : Nat) : Delivered n (q.drop j) pulled out where
  size_eq := by simp [hd.size_eq]
  append_queue i queue h := by
    rw [Queues.queue?_drop] at h
    split at h
    · simp at h
    · exact hd.append_queue i queue h
  prefix_of_dropped i hi _ := hd.out_prefix hi
  size_le cap hc i queue h := by
    rw [Queues.queue?_drop] at h
    split at h
    · simp at h
    · exact hd.size_le cap hc i queue h
  furthest := hd.furthest

/-- One call on a live fork keeps the invariant, the fork being credited with what the call
handed it. -/
theorem call (hd : Delivered n q pulled out) {up : Feed σ α} {s s' : σ} {c : ForkCall}
    {r : ForkReply α} {q' : Queues α} {pulled' : List α} (hl : q.live c.fork = true)
    (hc : q.call up.logged (s, pulled) c = (r, q', (s', pulled'))) :
    Delivered n q' pulled' (fun i => out i ++ (handedTo i (c, r)).toList) := by
  obtain ⟨queue, hq⟩ := Queues.exists_queue?_of_live hl
  cases c with
  | hasNext i =>
    simp only [Queues.call, Queues.hasNext_logged, Prod.mk.injEq] at hc
    obtain ⟨rfl, rfl, -, rfl⟩ := hc
    simpa [handedTo] using hd
  | drop i =>
    simp only [Queues.call, Prod.mk.injEq] at hc
    obtain ⟨rfl, rfl, -, rfl⟩ := hc
    simpa [handedTo] using hd.drop i
  | tryNext i =>
    simp only [ForkCall.fork_tryNext] at hq
    simp only [Queues.call] at hc
    rcases ht : q.tryNext up.logged i (s, pulled) with ⟨r', q'', st⟩
    rw [ht, Prod.mk.injEq, Prod.mk.injEq] at hc
    obtain ⟨rfl, rfl, rfl⟩ := hc
    rcases Queues.tryNext_cases hq ht with ⟨a, rest, hp, rfl, rfl, hs⟩ |
      ⟨he, hb, a, st₁, hh, htn, rfl, rfl⟩ | ⟨-, rfl, hno, hst⟩
    · simp only [Prod.mk.injEq] at hs
      obtain ⟨-, rfl⟩ := hs
      simpa using hd.pop hq hp
    · -- the upstream was read: the log grew by exactly that element
      simp only [Feed.logged_hasNext, Prod.mk.injEq] at hh
      obtain ⟨-, rfl⟩ := hh
      rcases hup : up.tryNext (up.hasNext s).2 with ⟨e | b, s₂⟩
      · rw [Feed.logged_tryNext_error hup] at htn; simp at htn
      · rw [Feed.logged_tryNext_ok hup] at htn
        simp only [Prod.mk.injEq, Except.ok.injEq] at htn
        obtain ⟨rfl, -, rfl⟩ := htn
        simpa using hd.read hq he hb b
    · -- a failed call changes no queue and leaves the log as it was
      have hlog : pulled' = pulled := by
        rcases hst with h | ⟨st₁, e, hh, htn⟩
        · simpa using (congrArg Prod.snd h).symm
        · simp only [Feed.logged_hasNext, Prod.mk.injEq] at hh
          obtain ⟨-, rfl⟩ := hh
          rcases hup : up.tryNext (up.hasNext s).2 with ⟨e' | b, s₂⟩
          · rw [Feed.logged_tryNext_error hup, Prod.mk.injEq] at htn
            exact (congrArg Prod.snd htn.2).symm
          · rw [Feed.logged_tryNext_ok hup] at htn; simp at htn
      subst hlog
      have hnone : ∀ j, handedTo j (ForkCall.tryNext i, ForkReply.tryNext r') = none := by
        intro j
        cases r' with
        | error e => rfl
        | ok a => exact absurd rfl (hno a)
      simpa [hnone] using hd

/-- A whole schedule keeps the invariant, each fork credited with what it was handed. -/
theorem run (up : Feed σ α) :
    ∀ (calls : List ForkCall) {q : Queues α} {s : σ} {pulled : List α} {out : Nat → List α},
      Delivered n q pulled out →
      Delivered n (q.run up.logged calls (s, pulled)).2.1 (q.run up.logged calls (s, pulled)).2.2.2
        (fun i => out i ++ delivered i (q.run up.logged calls (s, pulled)).1)
  | [], _, _, _, _, hd => by simpa [Queues.run] using hd
  | c :: cs, q, s, pulled, out, hd => by
    cases hl : q.live c.fork with
    | false =>
      rw [Queues.run_cons_of_not_live hl]
      exact run up cs hd
    | true =>
      rcases hc : q.call up.logged (s, pulled) c with ⟨r, q', s', pulled'⟩
      have ih := run up cs (hd.call hl hc) (s := s')
      rw [Queues.run_cons_of_live hl, hc]
      simpa [delivered_cons, List.append_assoc] using ih

end Delivered

/-! ## Every fork sees every element once -/

/-- **Every fork sees every element once, in order.** For any schedule of calls on the forks of
a hub, bounded or not, over any upstream: logging the upstream changes no reply; each fork has
handed out, in order, a prefix of the elements the upstream handed out; each live fork's queue
holds exactly the rest of them; a fork's queue is gone exactly when the schedule dropped the
fork; and some fork has handed out all of them, so the upstream is read once per element and
never ahead of the furthest fork. -/
theorem run_delivers_pulled (up : Feed σ α) {n : Nat} (hn : 0 < n) (capacity : Option Nat)
    (calls : List ForkCall) (s : σ) :
    match (Queues.create n capacity).run up.logged calls (s, []) with
    | (replies, q, (_, pulled)) =>
      replies = ((Queues.create n capacity).run up calls s).1 ∧
      (∀ i < n, delivered i replies <+: pulled) ∧
      (∀ i queue, q.queue? i = some queue → delivered i replies ++ queue.toList = pulled) ∧
      (∀ i < n, q.queue? i = none ↔ ForkCall.drop i ∈ replies.map Prod.fst) ∧
      ∃ i < n, delivered i replies = pulled := by
  have hd := Delivered.run up calls (Delivered.create (α := α) n capacity) (s := s)
  have hlog := Queues.run_logged up calls (Queues.create n capacity) s []
  have hgone := fun j => Queues.queue?_run_eq_none_iff up.logged j calls (Queues.create n capacity)
    (s, [])
  rcases hr : (Queues.create n capacity).run up.logged calls (s, []) with ⟨replies, q, s', pulled⟩
  rw [hr] at hd hlog
  simp only [hr] at hgone
  simp only [List.nil_append] at hd
  refine ⟨by rw [← hlog], fun i hi => hd.out_prefix hi, hd.append_queue, fun i hi => ?_, ?_⟩
  · simpa [hi] using hgone i
  · -- with nothing pulled, the first fork has handed out all of it
    rcases hd.furthest with hnil | hfar
    · subst hnil
      exact ⟨0, hn, List.eq_nil_of_prefix_nil (hd.out_prefix hn)⟩
    · exact hfar

/-- Two forks over `1, 2, 3`: the first reads twice, the second once and is dropped, and the
first reads the last element. -/
theorem run_delivers_pulled_two_forks :
    0 < 2 ∧
      match (Queues.create 2 none).run (Feed.ofList (α := Nat)).logged
          [.tryNext 0, .tryNext 0, .tryNext 1, .drop 1, .tryNext 0] ([1, 2, 3], []) with
      | (replies, q, (_, pulled)) =>
        replies = ((Queues.create 2 none).run Feed.ofList
          [.tryNext 0, .tryNext 0, .tryNext 1, .drop 1, .tryNext 0] [1, 2, 3]).1 ∧
        (∀ i < 2, delivered i replies <+: pulled) ∧
        (∀ i queue, q.queue? i = some queue → delivered i replies ++ queue.toList = pulled) ∧
        (∀ i < 2, q.queue? i = none ↔ ForkCall.drop i ∈ replies.map Prod.fst) ∧
        ∃ i < 2, delivered i replies = pulled :=
  ⟨by decide, run_delivers_pulled Feed.ofList (show 0 < 2 by decide) none
    [.tryNext 0, .tryNext 0, .tryNext 1, .drop 1, .tryNext 0] [1, 2, 3]⟩

/-! ## A bounded hub refuses atomically -/

namespace Queues

section Bounded

variable {up : Feed σ α} {q : Queues α} {i : Nat} {s : σ} {queue : Queue α} {cap : Nat}


/-- A fork fails with `bufferOverflow` exactly when its queue is empty, the upstream has a next
element, and either another live queue is full or the upstream itself fails so. The upstream's
`hasNext` answers a Boolean or stops everything, as every sequence's does. -/
theorem tryNext_eq_overflow_iff (hup : ∀ s e, (up.hasNext s).1 ≠ .error (.fail e))
    (hc : q.capacity = some cap) (hq : q.queue? i = some queue) :
    (q.tryNext up i s).1 = .error (.fail (.bufferOverflow cap)) ↔
      queue.toList = [] ∧ (up.hasNext s).1 = .ok true ∧
        ((∃ j other, j ≠ i ∧ q.queue? j = some other ∧ other.size = cap) ∨
          (up.tryNext (up.hasNext s).2).1 = .error (.fail (.bufferOverflow cap))) := by
  cases hp : queue.pop? with
  | some p =>
    obtain ⟨a, rest⟩ := p
    simp [tryNext_of_pop? hq hp, Queue.toList_of_pop? hp]
  | none =>
    have he := (Queue.pop?_eq_none_iff queue).1 hp
    rcases hh : up.hasNext s with ⟨e | b, s₁⟩
    · have hne := hup s
      rw [hh] at hne
      simp only [tryNext_of_hasNext_error hq he hh, reduceCtorEq, false_and, and_false,
        iff_false]
      exact fun h => hne _ (by rw [Except.error.injEq] at h ⊢; exact h)
    cases b with
    | false => simp [tryNext_of_hasNext_false hq he hh, Outcome.exhausted]
    | true =>
      cases hb : q.blocked i with
      | true =>
        simp only [tryNext_of_blocked hq he hh hb hc, he, true_and, true_iff]
        exact .inl ((blocked_iff_full hc).1 hb)
      | false =>
        rw [tryNext_of_not_blocked hq he hh hb]
        have hnot : ¬∃ j other, j ≠ i ∧ q.queue? j = some other ∧ other.size = cap := by
          rw [← blocked_iff_full hc, hb]
          exact Bool.false_ne_true
        rcases ht : up.tryNext s₁ with ⟨e | a, s₂⟩ <;> simp only [hnot, false_or] <;> simp [he]

end Bounded

end Queues

/-- The queues after the upstream answered `r` to a read for fork `i`: an element is offered to
every other live queue, a failure changes nothing. -/
def Queues.afterRead (q : Queues α) (i : Nat) : Outcome α → Queues α
  | .ok a => q.broadcast i a
  | .error _ => q

/-- **A bounded hub refuses atomically.** In a hub of capacity `cap`, over any schedule of calls,
every live queue holds at most `cap` elements and never refuses one: it holds exactly the
elements pulled that its fork has not handed out. For one call on a live fork: the fork fails
with `bufferOverflow cap` exactly when its queue is empty, the upstream has a next element, and
either another live queue is full or the upstream's own `tryNext` fails so; when another live
queue is full no queue changes and the upstream was only asked `hasNext`; and once no other live
queue is full the same call reads the upstream, handing out its answer and offering an element to
every other live queue. The upstream's `hasNext` answers a Boolean or stops everything, as every
sequence's does. -/
theorem bounded_tryNext_refuses_atomically (up : Feed σ α)
    (hup : ∀ s e, (up.hasNext s).1 ≠ .error (.fail e)) (cap : Nat) :
    (∀ n calls s,
      let r := (Queues.create n (some cap)).run up.logged calls (s, [])
      ∀ i queue, r.2.1.queue? i = some queue →
        queue.size ≤ cap ∧ delivered i r.1 ++ queue.toList = r.2.2.2) ∧
    ∀ (q : Queues α) (i : Nat) (queue : Queue α) (s : σ), q.capacity = some cap →
      q.queue? i = some queue →
      ((q.tryNext up i s).1 = .error (.fail (.bufferOverflow cap)) ↔
        queue.toList = [] ∧ (up.hasNext s).1 = .ok true ∧
          ((∃ j other, j ≠ i ∧ q.queue? j = some other ∧ other.size = cap) ∨
            (up.tryNext (up.hasNext s).2).1 = .error (.fail (.bufferOverflow cap)))) ∧
      (queue.toList = [] → (up.hasNext s).1 = .ok true →
        (∃ j other, j ≠ i ∧ q.queue? j = some other ∧ other.size = cap) →
        q.tryNext up i s = (.error (.fail (.bufferOverflow cap)), q, (up.hasNext s).2)) ∧
      (queue.toList = [] → (up.hasNext s).1 = .ok true →
        ¬(∃ j other, j ≠ i ∧ q.queue? j = some other ∧ other.size = cap) →
        q.tryNext up i s =
          ((up.tryNext (up.hasNext s).2).1, q.afterRead i (up.tryNext (up.hasNext s).2).1,
            (up.tryNext (up.hasNext s).2).2)) := by
  refine ⟨fun n calls s => ?_, fun q i queue s hc hq => ⟨Queues.tryNext_eq_overflow_iff hup hc hq,
    fun he hh hfull => ?_, fun he hh hroom => ?_⟩⟩
  · have hd := Delivered.run up calls (Delivered.create (α := α) n (some cap)) (s := s)
    have hcap := Queues.capacity_run up.logged calls (Queues.create n (some cap)) (s, [])
    intro r i queue hq
    exact ⟨hd.size_le cap hcap i queue hq, by simpa using hd.append_queue i queue hq⟩
  · have hs : up.hasNext s = (.ok true, (up.hasNext s).2) := Prod.ext hh rfl
    rw [Queues.tryNext_of_blocked hq he hs ((Queues.blocked_iff_full hc).2 hfull) hc]
  · have hs : up.hasNext s = (.ok true, (up.hasNext s).2) := Prod.ext hh rfl
    have hb : q.blocked i = false := Bool.eq_false_iff.2 fun hb => hroom ((Queues.blocked_iff_full hc).1 hb)
    rw [Queues.tryNext_of_not_blocked hq he hs hb]
    rcases up.tryNext (up.hasNext s).2 with ⟨e | a, s₂⟩ <;> rfl

/-- A hub of capacity one over the elements of a list: its `hasNext` never fails. -/
theorem bounded_tryNext_refuses_atomically_ofList :
    (∀ s e, ((Feed.ofList (α := Nat)).hasNext s).1 ≠ .error (.fail e)) ∧
    (∀ n calls s,
      let r := (Queues.create n (some 1)).run (Feed.ofList (α := Nat)).logged calls (s, [])
      ∀ i queue, r.2.1.queue? i = some queue →
        queue.size ≤ 1 ∧ delivered i r.1 ++ queue.toList = r.2.2.2) ∧
    ∀ (q : Queues Nat) (i : Nat) (queue : Queue Nat) (s : List Nat), q.capacity = some 1 →
      q.queue? i = some queue →
      ((q.tryNext Feed.ofList i s).1 = .error (.fail (.bufferOverflow 1)) ↔
        queue.toList = [] ∧ (Feed.ofList.hasNext s).1 = .ok true ∧
          ((∃ j other, j ≠ i ∧ q.queue? j = some other ∧ other.size = 1) ∨
            (Feed.ofList.tryNext (Feed.ofList.hasNext s).2).1 =
              .error (.fail (.bufferOverflow 1)))) ∧
      (queue.toList = [] → (Feed.ofList.hasNext s).1 = .ok true →
        (∃ j other, j ≠ i ∧ q.queue? j = some other ∧ other.size = 1) →
        q.tryNext Feed.ofList i s =
          (.error (.fail (.bufferOverflow 1)), q, (Feed.ofList.hasNext s).2)) ∧
      (queue.toList = [] → (Feed.ofList.hasNext s).1 = .ok true →
        ¬(∃ j other, j ≠ i ∧ q.queue? j = some other ∧ other.size = 1) →
        q.tryNext Feed.ofList i s =
          ((Feed.ofList.tryNext (Feed.ofList.hasNext s).2).1,
            q.afterRead i (Feed.ofList.tryNext (Feed.ofList.hasNext s).2).1,
            (Feed.ofList.tryNext (Feed.ofList.hasNext s).2).2)) := by
  have hup : ∀ s e, ((Feed.ofList (α := Nat)).hasNext s).1 ≠ .error (.fail e) := by
    intro s e
    simp [Feed.ofList]
  exact ⟨hup, bounded_tryNext_refuses_atomically Feed.ofList hup 1⟩

/-- Fork `i` of a hub over `up`, as an input of its own: its state is the hub's. -/
def Queues.fork (up : Feed σ α) (i : Nat) : Feed (Queues α × σ) α where
  hasNext := fun (q, s) => let (r, s) := q.hasNext up i s; (r, (q, s))
  tryNext := fun (q, s) => let (r, q, s) := q.tryNext up i s; (r, (q, s))

/-- One sibling's read does not end a refusal while another sibling is full, and a hub over a
blocked fork is refused with no full sibling of its own. Three forks of capacity one over
`1, 2, 3`: the first reads `1` and is refused; the second reads, and the first is refused again,
the third still holding `1`. A hub of capacity one over the second fork of such a hub whose first
fork is full: its first fork is refused while its sibling's queue is empty, and again once that
sibling is dropped. -/
theorem overflow_outlasts_one_sibling :
    ((Queues.create 3 (some 1)).run (Feed.ofList (α := Nat))
        [.tryNext 0, .tryNext 0, .tryNext 1, .tryNext 0] [1, 2, 3]).1.map Prod.snd =
      [.tryNext (.ok 1), .tryNext (.error (.fail (.bufferOverflow 1))), .tryNext (.ok 1),
        .tryNext (.error (.fail (.bufferOverflow 1)))] ∧
    ((Queues.create 2 (some 1)).run (Queues.fork (Feed.ofList (α := Nat)) 1)
        [.tryNext 0, .drop 1, .tryNext 0]
        ((Queues.create 2 (some 1)).run Feed.ofList [.tryNext 1] [1, 2, 3]).2).1.map Prod.snd =
      [.tryNext (.error (.fail (.bufferOverflow 1))), .dropped,
        .tryNext (.error (.fail (.bufferOverflow 1)))] :=
  ⟨rfl, rfl⟩

end LazySeq
