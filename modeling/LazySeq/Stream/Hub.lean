import LazySeq.Stream.Feed

/-!
# Forks of one input

A hub shares one upstream input among several forks. It keeps one queue per fork: the upstream
elements already read that the fork has not yet handed out. A dropped fork has no queue and
receives nothing.

A fork first hands out its own queue. When that is empty it reads the upstream once and appends
the element to every other live queue, so whatever one fork reads first the others see later, in
the same order. A queue of a hub with a capacity holds at most `capacity` elements and refuses an
element once full, so such a hub refuses the read while another live queue is full: the fork
fails with `bufferOverflow` and nothing changes, so the same call succeeds once the full siblings
have read or been dropped.

A queue is kept as a front list and a reversed back list with its size, so that appending and
taking are constant time on average; `Queue.toList` is the queue in order.
-/

namespace LazySeq

variable {σ α : Type}

/-- A first-in first-out queue: `front` in order, then `back` reversed; `size` counts both. -/
structure Queue (α : Type) where
  front : List α
  back : List α
  size : Nat
  size_eq : size = front.length + back.length

namespace Queue

/-- The empty queue. -/
def empty : Queue α := ⟨[], [], 0, rfl⟩

/-- The elements in order. -/
def toList (q : Queue α) : List α := q.front ++ q.back.reverse

/-- The queue with `a` appended. -/
def push (q : Queue α) (a : α) : Queue α :=
  ⟨q.front, a :: q.back, q.size + 1, by simp [q.size_eq, Nat.add_assoc]⟩

/-- The first element and the rest, if any. -/
def pop? (q : Queue α) : Option (α × Queue α) :=
  match hf : q.front with
  | a :: rest =>
    some (a, ⟨rest, q.back, q.size - 1, by
      have h := q.size_eq
      rw [hf, List.length_cons] at h
      omega⟩)
  | [] =>
    match hb : q.back.reverse with
    | a :: rest =>
      some (a, ⟨rest, [], q.size - 1, by
        have h := q.size_eq
        have hl := congrArg List.length hb
        rw [hf, List.length_nil] at h
        rw [List.length_reverse, List.length_cons] at hl
        rw [List.length_nil]
        omega⟩)
    | [] => none

@[simp]
theorem toList_empty : (empty : Queue α).toList = [] := rfl

@[simp]
theorem toList_push (q : Queue α) (a : α) : (q.push a).toList = q.toList ++ [a] := by
  simp [push, toList]

theorem size_eq_length (q : Queue α) : q.size = q.toList.length := by
  simp [toList, q.size_eq]

/-- Taking from a queue takes the head of its list. -/
theorem pop?_toList (q : Queue α) :
    q.pop?.map (fun p => (p.1, p.2.toList)) = match q.toList with
      | [] => none
      | a :: rest => some (a, rest) := by
  rcases q with ⟨front, back, size, h⟩
  cases front with
  | cons a rest => simp [pop?, toList]
  | nil =>
    simp only [pop?, toList, List.nil_append]
    split <;> simp_all

end Queue

/-- The queues of a hub (`none` for a dropped fork) and its capacity, if bounded. -/
structure Queues (α : Type) where
  queues : Array (Option (Queue α))
  capacity : Option Nat

namespace Queues

/-- `n` empty queues. -/
def create (n : Nat) (capacity : Option Nat) : Queues α :=
  ⟨Array.replicate n (some Queue.empty), capacity⟩

/-- The queue of fork `i` released. -/
def drop (q : Queues α) (i : Nat) : Queues α :=
  { q with queues := q.queues.set! i none }

/-- Every fork has been dropped. -/
def allDropped (q : Queues α) : Bool := q.queues.all Option.isNone

/-- Some live queue other than fork `i`'s is full. -/
def blocked (q : Queues α) (i : Nat) : Bool :=
  match q.capacity with
  | none => false
  | some cap =>
    (q.queues.toList.zipIdx.any fun (queue, j) =>
      j != i && match queue with
        | some items => items.size == cap
        | none => false)

/-- A queue with `a` appended if it has room: a queue of a bounded hub holds at most `capacity`
elements and refuses the element once full. -/
def offer (q : Queues α) (queue : Queue α) (a : α) : Queue α :=
  match q.capacity with
  | some cap => if queue.size < cap then queue.push a else queue
  | none => queue.push a

/-- Offers an element to every live queue but fork `i`'s. -/
def broadcast (q : Queues α) (i : Nat) (a : α) : Queues α :=
  { q with queues := q.queues.mapIdx fun j queue =>
      if j == i then queue else queue.map (q.offer · a) }

/-- Fork `i` has a queued element, or the upstream has one. -/
def hasNext (upstream : Feed σ α) (q : Queues α) (i : Nat) (s : σ) : Outcome Bool × σ :=
  match q.queues[i]? with
  | some (some queue) => if queue.size > 0 then (.ok true, s) else upstream.hasNext s
  | _ => upstream.hasNext s

/-- The next element of fork `i`. -/
def tryNext (upstream : Feed σ α) (q : Queues α) (i : Nat) (s : σ) :
    Outcome α × Queues α × σ :=
  match (q.queues[i]?).bind (·.bind Queue.pop?) with
  | some (a, rest) => (.ok a, { q with queues := q.queues.set! i (some rest) }, s)
  | none =>
    match upstream.hasNext s with
    | (.error h, s) => (.error h, q, s)
    | (.ok false, s) => (Outcome.exhausted, q, s)
    | (.ok true, s) =>
      if q.blocked i then
        match q.capacity with
        | some cap => (.error (.fail (.bufferOverflow cap)), q, s)
        | none => (Outcome.exhausted, q, s)
      else
        match upstream.tryNext s with
        | (.error h, s) => (.error h, q, s)
        | (.ok a, s) => (.ok a, q.broadcast i a, s)

end Queues

end LazySeq
