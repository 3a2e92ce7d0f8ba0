import LazySeq.Proofs.Stream.StableMerge
import LazySeq.Proofs.Stream.Delivery

/-!
# Zip and unzip undo each other

A zip of lists hands out rows: row `j` holds each list's element at `j`, or nothing past the
list's end (`zipRows`). A weak zip hands out as many rows as the longest list has elements, a
strong one as many as the shortest, and a zip of no lists none (`zipLength`). The zip adapter,
over inputs that share a state and behave as lists, yields exactly these rows (`Zip.yields`):
between rows it holds no cell (`ZipAt`), it asks its inputs in order whether some (weak) or
every (strong) one has an element, and it reads one head from each input per row.

Unzipping reads rows through the forks of an unbounded hub, one fork per column, column `i`
keeping cell `i` of each row (`Queues.column`). Alone, a fork hands out its queue and then what
the upstream still holds (`ForkAt`); along any schedule of calls on the forks the upstream has
handed out a prefix of its rows and holds the rest (`ReadFrom`). Together with what the queues keep
(`Delivered`), every column has handed out, after any interleaving, the cells of a prefix of the
rows, and drained it hands out the cells of the rest: one item per row.

**Main statement.** `zip_unzip_inverse`.
-/

namespace LazySeq

variable {σ τ α β : Type}

/-! ## The rows of a zip of lists -/

/-- How many rows a zip of the lists `L` hands out: the longest length for a weak zip, the
shortest for a strong one, and none for no lists. -/
def zipLength (weak : Bool) : List (List α) → ℕ
  | [] => 0
  | [l] => l.length
  | l :: L => if weak then max l.length (zipLength weak L) else min l.length (zipLength weak L)

/-- The rows a zip of the lists `L` hands out: row `j` holds each list's element at `j`, or
nothing past that list's end. -/
def zipRows (weak : Bool) (L : List (List α)) : List (List (Option α)) :=
  (List.range (zipLength weak L)).map fun j => L.map (·[j]?)

@[simp] theorem length_zipRows (weak : Bool) (L : List (List α)) :
    (zipRows weak L).length = zipLength weak L := by
  simp [zipRows]

theorem getElem?_zipRows (weak : Bool) (L : List (List α)) (j : ℕ) :
    (zipRows weak L)[j]? = if j < zipLength weak L then some (L.map (·[j]?)) else none := by
  by_cases hj : j < zipLength weak L <;> simp [zipRows, hj]

/-- Taking one element off every list takes one row off the zip. -/
theorem zipLength_map_tail (weak : Bool) :
    ∀ L : List (List α), zipLength weak (L.map List.tail) = zipLength weak L - 1
  | [] => rfl
  | [l] => by simp [zipLength]
  | l :: l' :: L => by
    have ih := zipLength_map_tail weak (l' :: L)
    simp only [List.map_cons] at ih ⊢
    simp only [zipLength, List.length_tail] at ih ⊢
    cases weak <;> simp only [ih, Bool.false_eq_true, if_false, if_true] <;> omega

/-- A zip of lists has no row exactly when the zip adapter says it has nothing more. -/
theorem zipLength_eq_zero_iff (weak : Bool) :
    ∀ L : List (List α), zipLength weak L = 0 ↔ mergeAnswer weak L = false
  | [] => by cases weak <;> simp [zipLength, mergeAnswer]
  | [l] => by cases weak <;> cases l <;> simp [zipLength, mergeAnswer]
  | l :: l' :: L => by
    have ih := zipLength_eq_zero_iff weak (l' :: L)
    cases weak with
    | false =>
      -- the shortest is empty exactly when the first list or one of the others is
      simp_all [zipLength, mergeAnswer]
      tauto
    | true => simp_all [zipLength, mergeAnswer]

theorem isEmpty_zipRows (weak : Bool) (L : List (List α)) :
    (zipRows weak L).isEmpty = !mergeAnswer weak L := by
  rw [Bool.eq_iff_iff, List.isEmpty_iff_length_eq_zero, length_zipRows, zipLength_eq_zero_iff]
  simp

/-- **One row of the zip.** While the zip goes on, its first row holds the heads of the lists
and the rest are the rows of their tails. -/
theorem zipRows_of_answer {weak : Bool} {L : List (List α)} (h : mergeAnswer weak L = true) :
    zipRows weak L = L.map List.head? :: zipRows weak (L.map List.tail) := by
  obtain ⟨k, hk⟩ : ∃ k, zipLength weak L = k + 1 :=
    Nat.exists_eq_succ_of_ne_zero fun h0 => by simp [(zipLength_eq_zero_iff weak L).1 h0] at h
  have htail : zipLength weak (L.map List.tail) = k := by
    rw [zipLength_map_tail, hk, Nat.add_sub_cancel]
  simp only [zipRows, hk, htail, List.range_succ_eq_map, List.map_cons, List.map_map,
    List.cons.injEq]
  constructor
  · simp [List.head?_eq_getElem?]
  · simp [Function.comp_def, List.getElem?_tail]

/-- A weak zip has as many rows as its longest list, a strong one as its shortest. -/
theorem le_zipLength_true : ∀ {L : List (List α)}, ∀ l ∈ L, l.length ≤ zipLength true L
  | [], _, hl => absurd hl List.not_mem_nil
  | [l'], l, hl => by simp_all [zipLength]
  | l' :: l'' :: L, l, hl => by
    have ih : ∀ m ∈ l'' :: L, m.length ≤ zipLength true (l'' :: L) := le_zipLength_true
    simp only [zipLength, if_true]
    rcases List.mem_cons.1 hl with rfl | hl
    · exact le_max_left _ _
    · exact le_max_of_le_right (ih l hl)

theorem zipLength_false_le : ∀ {L : List (List α)}, ∀ l ∈ L, zipLength false L ≤ l.length
  | [], _, hl => absurd hl List.not_mem_nil
  | [l'], l, hl => by simp_all [zipLength]
  | l' :: l'' :: L, l, hl => by
    have ih : ∀ m ∈ l'' :: L, zipLength false (l'' :: L) ≤ m.length := zipLength_false_le
    simp only [zipLength, Bool.false_eq_true, if_false]
    rcases List.mem_cons.1 hl with rfl | hl
    · exact min_le_left _ _
    · exact min_le_of_right_le (ih l hl)

/-- Some list has exactly as many elements as the zip has rows. -/
theorem exists_length_eq_zipLength (weak : Bool) :
    ∀ {L : List (List α)}, L ≠ [] → ∃ l ∈ L, l.length = zipLength weak L
  | [], h => absurd rfl h
  | [l], _ => ⟨l, List.mem_singleton_self l, rfl⟩
  | l :: l' :: L, _ => by
    obtain ⟨m, hm, hlen⟩ : ∃ m ∈ l' :: L, m.length = zipLength weak (l' :: L) :=
      exists_length_eq_zipLength weak (List.cons_ne_nil _ _)
    simp only [zipLength]
    -- the longer (weak) or shorter (strong) of the first list and the best of the others
    cases weak <;> simp only [Bool.false_eq_true, if_false, if_true, ← hlen]
    · rcases min_choice l.length m.length with h | h
      · exact ⟨l, List.mem_cons_self, h.symm⟩
      · exact ⟨m, List.mem_cons_of_mem l hm, h.symm⟩
    · rcases max_choice l.length m.length with h | h
      · exact ⟨l, List.mem_cons_self, h.symm⟩
      · exact ⟨m, List.mem_cons_of_mem l hm, h.symm⟩

/-! ## The zip adapter yields its rows -/

section ZipFeed

variable {inputs : List (Feed σ α)} {R : σ → List (List α) → Prop}

/-- A zip between two rows, over inputs that hold the lists `L`: no cell is read ahead, and the
rows still to come are those of `L`. -/
def ZipAt (inputs : List (Feed σ α)) (R : σ → List (List α) → Prop) (weak : Bool)
    (p : Array (Option α) × σ) (rows : List (List (Option α))) : Prop :=
  p.1 = #[] ∧ ∃ L, L.length = inputs.length ∧ R p.2 L ∧ rows = zipRows weak L

/-- The lists from the `k`-th on: list `k`, then those after it. -/
theorem drop_eq_getD_cons {L : List (List α)} {k : ℕ} (h : k < L.length) :
    L.drop k = L.getD k [] :: L.drop (k + 1) := by
  rw [List.drop_eq_getElem_cons h, List.getD_eq_getElem?_getD, List.getElem?_eq_getElem h,
    Option.getD_some]

variable (hin : ∀ (i : ℕ) (f : Feed σ α), inputs[i]? = some f → f.YieldsAt R i)
include hin

/-- Asking the inputs from the `k`-th on whether some has an element answers as their lists,
and leaves every list in place. -/
theorem anyHasNext_drop {L : List (List α)} (hL : L.length = inputs.length) :
    ∀ (d k : ℕ), k + d = inputs.length → ∀ {s : σ}, R s L →
      ∃ s', Zip.anyHasNext (inputs.drop k) s = (.ok ((L.drop k).any (!·.isEmpty)), s') ∧ R s' L
  | 0, k, hk, s, hs => by
    refine ⟨s, ?_, hs⟩
    rw [List.drop_of_length_le (by omega), List.drop_of_length_le (by omega)]
    rfl
  | d + 1, k, hk, s, hs => by
    have hk' : k < inputs.length := by omega
    obtain ⟨s₁, hh, hs₁⟩ := (hin k inputs[k] (List.getElem?_eq_getElem hk')).hasNext hs
    rw [List.drop_eq_getElem_cons hk', drop_eq_getD_cons (by omega), List.any_cons]
    cases hne : (L.getD k []).isEmpty with
    | false => exact ⟨s₁, by simp only [Zip.anyHasNext, hh, hne, Bool.not_false, Bool.true_or],
      hs₁⟩
    | true =>
      -- an empty list passes the question on to the next input
      obtain ⟨s₂, hrest, hs₂⟩ := anyHasNext_drop hL d (k + 1) (by omega) hs₁
      exact ⟨s₂, by simp only [Zip.anyHasNext, hh, hne, hrest, Bool.not_true, Bool.false_or],
        hs₂⟩

/-- Asking the inputs from the `k`-th on whether every one has an element answers as their
lists, and leaves every list in place. -/
theorem allHasNext_drop {L : List (List α)} (hL : L.length = inputs.length) :
    ∀ (d k : ℕ), k + d = inputs.length → ∀ {s : σ}, R s L →
      ∃ s', Zip.allHasNext (inputs.drop k) s = (.ok ((L.drop k).all (!·.isEmpty)), s') ∧ R s' L
  | 0, k, hk, s, hs => by
    refine ⟨s, ?_, hs⟩
    rw [List.drop_of_length_le (by omega), List.drop_of_length_le (by omega)]
    rfl
  | d + 1, k, hk, s, hs => by
    have hk' : k < inputs.length := by omega
    obtain ⟨s₁, hh, hs₁⟩ := (hin k inputs[k] (List.getElem?_eq_getElem hk')).hasNext hs
    rw [List.drop_eq_getElem_cons hk', drop_eq_getD_cons (by omega), List.all_cons]
    cases hne : (L.getD k []).isEmpty with
    | true => exact ⟨s₁, by simp only [Zip.allHasNext, hh, hne, Bool.not_true, Bool.false_and],
      hs₁⟩
    | false =>
      -- a list with an element passes the question on to the next input
      obtain ⟨s₂, hrest, hs₂⟩ := allHasNext_drop hL d (k + 1) (by omega) hs₁
      exact ⟨s₂, by simp only [Zip.allHasNext, hh, hne, hrest, Bool.not_false, Bool.true_and],
        hs₂⟩

/-- Between rows, the zip says it has more exactly when some (weak) or every one of at least one
(strong) list has an element, and reads nothing. -/
theorem Zip.hasNext_between (weak : Bool) {L : List (List α)} (hL : L.length = inputs.length)
    {s : σ} (hs : R s L) :
    ∃ s', Zip.hasNext weak inputs #[] s = (.ok (mergeAnswer weak L), s') ∧ R s' L := by
  cases inputs with
  | nil =>
    obtain rfl : L = [] := List.eq_nil_of_length_eq_zero hL
    exact ⟨s, by cases weak <;> rfl, hs⟩
  | cons f fs =>
    have hne : L ≠ [] := List.ne_nil_of_length_eq_add_one hL
    cases weak with
    | true =>
      obtain ⟨s', h, hs'⟩ := anyHasNext_drop hin hL (f :: fs).length 0 (Nat.zero_add _) hs
      exact ⟨s', by simpa [Zip.hasNext, mergeAnswer] using h, hs'⟩
    | false =>
      obtain ⟨s', h, hs'⟩ := allHasNext_drop hin hL (f :: fs).length 0 (Nat.zero_add _) hs
      have hE : L.isEmpty = false := List.isEmpty_eq_false_iff.2 hne
      exact ⟨s', by simpa [Zip.hasNext, mergeAnswer, hE] using h, hs'⟩

/-- **One row of the zip adapter.** Between rows, while the zip goes on, the next row holds the
heads of the lists, and the inputs are left their tails. -/
theorem Zip.tryNext_between {weak : Bool} {L : List (List α)} (hL : L.length = inputs.length)
    {s : σ} (hs : R s L) (hans : mergeAnswer weak L = true) :
    ∃ s', Zip.tryNext weak inputs #[] s = (.ok (L.map List.head?), #[], s') ∧
      R s' (L.map List.tail) := by
  obtain ⟨s₁, hh, hs₁⟩ := Zip.hasNext_between hin weak hL hs
  obtain ⟨s₂, hfill, hs₂⟩ := fillFrom_heads hin hL inputs.length 0 (Nat.zero_add _)
    (show (#[] : Array (Option α)).toList = (L.take 0).map List.head? by simp) (by simpa using hs₁)
  refine ⟨s₂, ?_, hs₂⟩
  simp only [Zip.tryNext, hh, hans, Zip.fill, Array.size_empty, hfill]

/-- **The zip adapter yields the rows of its inputs' lists.** -/
theorem Zip.yields (weak : Bool) : (Zip.feed weak inputs).Yields (ZipAt inputs R weak) where
  hasNext := by
    rintro ⟨row, s⟩ _ ⟨rfl, L, hL, hs, rfl⟩
    obtain ⟨s', hh, hs'⟩ := Zip.hasNext_between hin weak hL hs
    refine ⟨(#[], s'), ?_, rfl, L, hL, hs', rfl⟩
    simp [Zip.feed, hh, isEmpty_zipRows]
  tryNext := by
    rintro ⟨row, s⟩ r rows ⟨rfl, L, hL, hs, hrows⟩
    have hans : mergeAnswer weak L = true := by
      have h := isEmpty_zipRows weak L
      rw [← hrows] at h
      simpa using h
    rw [zipRows_of_answer hans, List.cons.injEq] at hrows
    obtain ⟨rfl, rfl⟩ := hrows
    obtain ⟨s', ht, hs'⟩ := Zip.tryNext_between hin hL hs hans
    exact ⟨(#[], s'), by simp [Zip.feed, ht], rfl, L.map List.tail, by rw [List.length_map, hL],
      hs', rfl⟩

end ZipFeed

/-! ## A fork of an unbounded hub, alone -/

namespace Queues

section Fork

variable {up : Feed σ α} {R : σ → List α → Prop}

@[simp] theorem fork_hasNext (up : Feed σ α) (i : ℕ) (q : Queues α) (s : σ) :
    (Queues.fork up i).hasNext (q, s) = ((q.hasNext up i s).1, (q, (q.hasNext up i s).2)) :=
  rfl

@[simp] theorem fork_tryNext (up : Feed σ α) (i : ℕ) (q : Queues α) (s : σ) :
    (Queues.fork up i).tryNext (q, s) =
      ((q.tryNext up i s).1, ((q.tryNext up i s).2.1, (q.tryNext up i s).2.2)) :=
  rfl

theorem blocked_of_unbounded {q : Queues α} (hc : q.capacity = none) (i : ℕ) :
    q.blocked i = false := by
  simp [blocked, hc]

theorem hasNext_of_queue? {q : Queues α} {i : ℕ} {queue : Queue α} (hq : q.queue? i = some queue)
    (s : σ) : q.hasNext up i s = if queue.size > 0 then (.ok true, s) else up.hasNext s := by
  simp [hasNext, getElem?_of_queue? hq]

/-- Asking a fork leaves the upstream as it was, or as asking the upstream leaves it. -/
theorem hasNext_snd (up : Feed σ α) (q : Queues α) (i : ℕ) (s : σ) :
    (q.hasNext up i s).2 = s ∨ (q.hasNext up i s).2 = (up.hasNext s).2 := by
  unfold hasNext
  split
  · split
    · exact .inl rfl
    · exact .inr rfl
  · exact .inr rfl

/-- Fork `i` of an unbounded hub: what it still hands out is its queue, then what the upstream
holds. -/
def ForkAt (R : σ → List α → Prop) (i : ℕ) (p : Queues α × σ) (xs : List α) : Prop :=
  p.1.capacity = none ∧
    ∃ queue rest, p.1.queue? i = some queue ∧ R p.2 rest ∧ xs = queue.toList ++ rest

/-- **A fork of an unbounded hub, alone, hands out its queue and then the upstream's elements.**
-/
theorem fork_yields (h : up.Yields R) (i : ℕ) : (Queues.fork up i).Yields (ForkAt R i) where
  hasNext := by
    rintro ⟨q, s⟩ _ ⟨hc, queue, rest, hq, hs, rfl⟩
    rw [fork_hasNext, hasNext_of_queue? hq]
    cases hqs : queue.toList with
    | nil =>
      -- an empty queue: the fork answers as the upstream
      have hsize : ¬queue.size > 0 := by simp [Queue.size_eq_length, hqs]
      obtain ⟨s', hh, hs'⟩ := h.hasNext hs
      exact ⟨(q, s'), by simp [hsize, hh], hc, queue, rest, hq, hs', by simp [hqs]⟩
    | cons a t =>
      have hsize : queue.size > 0 := by simp [Queue.size_eq_length, hqs]
      exact ⟨(q, s), by simp [hsize], hc, queue, rest, hq, hs, by simp [hqs]⟩
  tryNext := by
    rintro ⟨q, s⟩ a xs ⟨hc, queue, rest, hq, hs, hxs⟩
    cases hp : queue.pop? with
    | some p =>
      -- the queue's head goes first
      obtain ⟨b, rest'⟩ := p
      rw [Queue.toList_of_pop? hp, List.cons_append, List.cons.injEq] at hxs
      obtain ⟨rfl, rfl⟩ := hxs
      refine ⟨({ q with queues := q.queues.set! i (some rest') }, s), ?_, hc, rest', rest, ?_, hs,
        rfl⟩
      · simp [tryNext_of_pop? hq hp]
      · rw [queue?_set hq, if_pos rfl]
    | none =>
      -- an empty queue: the fork reads the upstream and offers the element to its siblings
      have he := (Queue.pop?_eq_none_iff queue).1 hp
      rw [he, List.nil_append] at hxs
      subst hxs
      obtain ⟨s₁, hh, hs₁⟩ := h.hasNext hs
      obtain ⟨s₂, ht, hs₂⟩ := h.tryNext hs₁
      refine ⟨(q.broadcast i a, s₂), ?_, by rw [capacity_broadcast, hc], queue, xs, by simp [hq],
        hs₂, by simp [he]⟩
      have hh' : up.hasNext s = (.ok true, s₁) := by simpa using hh
      simp [tryNext_of_not_blocked hq he hh' (blocked_of_unbounded hc i), ht]

end Fork

end Queues

/-! ## The upstream of a hub along a schedule -/

section ReadFrom

variable {up : Feed σ α} {R : σ → List α → Prop} {rows : List α}

/-- A logged upstream read from the list `rows`: the log is what it has handed out, and its state
holds the rest of `rows`. -/
def ReadFrom (R : σ → List α → Prop) (rows : List α) (p : σ × List α) : Prop :=
  ∃ rest, R p.1 rest ∧ p.2 ++ rest = rows

theorem ReadFrom.hasNext (h : up.Yields R) {s : σ} {log : List α} (ht : ReadFrom R rows (s, log)) :
    ReadFrom R rows ((up.hasNext s).2, log) := by
  obtain ⟨rest, hs, happ⟩ := ht
  obtain ⟨s', hh, hs'⟩ := h.hasNext hs
  exact ⟨rest, by rw [hh]; exact hs', happ⟩

/-- Once the upstream has said it has an element, a read hands out its next row and logs it. -/
theorem ReadFrom.tryNext_after (h : up.Yields R) {s : σ} {log : List α} {p : σ × List α}
    (ht : ReadFrom R rows (s, log)) (hh : up.logged.hasNext (s, log) = (.ok true, p)) :
    ∃ b p', up.logged.tryNext p = (.ok b, p') ∧ ReadFrom R rows p' := by
  obtain ⟨rest, hs, happ⟩ := ht
  obtain ⟨s₁, hh₁, hs₁⟩ := h.hasNext hs
  rw [Feed.logged_hasNext, hh₁, Prod.mk.injEq, Except.ok.injEq] at hh
  obtain ⟨hne, rfl⟩ := hh
  cases rest with
  | nil => simp at hne
  | cons b rest =>
    obtain ⟨s₂, ht₂, hs₂⟩ := h.tryNext hs₁
    exact ⟨b, (s₂, log ++ [b]), Feed.logged_tryNext_ok ht₂, rest, hs₂, by simpa using happ⟩

/-- One call on a live fork keeps the upstream read from `rows`. -/
theorem ReadFrom.call (h : up.Yields R) {q q' : Queues α} {s s' : σ} {log log' : List α}
    {c : ForkCall} {r : ForkReply α} (hl : q.live c.fork = true) (ht : ReadFrom R rows (s, log))
    (hc : q.call up.logged (s, log) c = (r, q', s', log')) : ReadFrom R rows (s', log') := by
  cases c with
  | hasNext i =>
    simp only [Queues.call, Queues.hasNext_logged, Prod.mk.injEq] at hc
    obtain ⟨-, -, rfl, rfl⟩ := hc
    rcases Queues.hasNext_snd up q i s with h' | h'
    · rw [h']; exact ht
    · rw [h']; exact ht.hasNext h
  | drop i =>
    simp only [Queues.call, Prod.mk.injEq] at hc
    obtain ⟨-, -, rfl, rfl⟩ := hc
    exact ht
  | tryNext i =>
    obtain ⟨queue, hq⟩ := Queues.exists_queue?_of_live hl
    simp only [Queues.call] at hc
    rcases hres : q.tryNext up.logged i (s, log) with ⟨r', q'', s'', log''⟩
    rw [hres] at hc
    simp only [Prod.mk.injEq] at hc
    obtain ⟨-, -, rfl, rfl⟩ := hc
    rcases Queues.tryNext_cases hq hres with ⟨-, -, -, -, -, hs⟩ | ⟨-, -, a, p, hh, ht', -, -⟩ |
        ⟨-, -, -, hfail⟩
    · -- the queue's head: the upstream is not touched
      rw [hs]
      exact ht
    · -- one read of the upstream: its next row joins the log
      obtain ⟨b, p', ht₂, htr⟩ := ReadFrom.tryNext_after h ht hh
      rw [ht₂, Prod.mk.injEq] at ht'
      rw [← ht'.2]
      exact htr
    · rcases hfail with hs | ⟨p, e, hh, hte⟩
      · -- only asked whether it has an element
        rw [Feed.logged_hasNext] at hs
        rw [← hs]
        exact ht.hasNext h
      · -- a read after a yes cannot fail: the upstream behaves as a list
        obtain ⟨b, p', ht₂, -⟩ := ReadFrom.tryNext_after h ht hh
        rw [ht₂] at hte
        cases hte

/-- **A whole schedule keeps the upstream read from `rows`.** -/
theorem ReadFrom.run (h : up.Yields R) :
    ∀ (calls : List ForkCall) {q : Queues α} {p : σ × List α},
      ReadFrom R rows p → ReadFrom R rows (q.run up.logged calls p).2.2
  | [], _, _, ht => ht
  | c :: cs, q, ⟨s, log⟩, ht => by
    cases hl : q.live c.fork with
    | false =>
      rw [Queues.run_cons_of_not_live hl]
      exact ReadFrom.run h cs ht
    | true =>
      rcases hc : q.call up.logged (s, log) c with ⟨r, q', s', log'⟩
      rw [Queues.run_cons_of_live hl, hc]
      exact ReadFrom.run h cs (ReadFrom.call h hl ht hc)

end ReadFrom

/-! ## Unzipping reads every row once per column -/

/-- Column `i` of rows: each row's cell `i`, or nothing for a shorter row. -/
def columnOf (i : ℕ) (rows : List (List β)) : List (Option β) := rows.map (·[i]?)

/-- Column `i` of the rows an upstream hands out, read through fork `i` of a hub over it. -/
def Queues.column (up : Feed σ (List β)) (i : ℕ) : Feed (Queues (List β) × σ) (Option β) :=
  (Queues.fork up i).map (·[i]?)

/-- **Every column of an unzip sees every row once.** Over an upstream that yields `rows`, after
any schedule of calls on the `w` forks of an unbounded hub, fork `i` has been handed the first
`k` rows for some `k`, so column `i` the first `k` cells, and if the fork is live, column `i`
drained hands out the cells of the other rows. -/
theorem unzip_columns {up : Feed σ (List β)} {R : σ → List (List β) → Prop} (h : up.Yields R)
    {rows : List (List β)} {s : σ} (hs : R s rows) (w : ℕ) (calls : List ForkCall) :
    ∀ i < w, ∃ k, delivered i ((Queues.create w none).run up calls s).1 = rows.take k ∧
      (((Queues.create w none).run up calls s).2.1.live i = true → ∀ fuel, rows.length < fuel →
        ((Queues.column up i).takeAll fuel [] ((Queues.create w none).run up calls s).2).1 =
          .ok (columnOf i (rows.drop k))) := by
  intro i hi
  have hlog := Queues.run_logged up calls (Queues.create w none) s []
  have hd := Delivered.run up calls (Delivered.create (α := List β) w none) (s := s)
  have ht0 : ReadFrom R rows (s, []) := ⟨rows, hs, rfl⟩
  have ht := ReadFrom.run h calls (q := Queues.create w none) ht0
  have hcap := Queues.capacity_run up.logged calls (Queues.create w none) (s, [])
  rcases hr : (Queues.create w none).run up.logged calls (s, []) with ⟨replies, q, s', pulled⟩
  rw [hr] at hlog hd ht hcap
  rw [← hlog]
  simp only [List.nil_append] at hd
  obtain ⟨rest, hs', happ⟩ := ht
  simp only at hs' happ hcap
  -- what fork `i` was handed is a prefix of what the upstream handed out, itself one of `rows`
  have hpre : delivered i replies <+: rows := (hd.out_prefix hi).trans ⟨rest, happ⟩
  refine ⟨(delivered i replies).length, List.prefix_iff_eq_take.1 hpre, fun hl fuel hfuel => ?_⟩
  obtain ⟨queue, hq⟩ := Queues.exists_queue?_of_live hl
  simp only at hq
  have hrest : queue.toList ++ rest = rows.drop (delivered i replies).length := by
    rw [← happ, ← hd.append_queue i queue hq, List.append_assoc, List.drop_left]
  have hyields := (Queues.fork_yields h i).map (·[i]?)
  refine hyields.takeAll_nil ⟨queue.toList ++ rest, ⟨by simpa using hcap, queue, rest, hq, hs', rfl⟩,
    by rw [hrest]; rfl⟩ ?_
  calc (columnOf i (rows.drop (delivered i replies).length)).length
      ≤ rows.length := by simp [columnOf]
    _ < fuel := hfuel

/-! ## Unzipping a weak zip gives the lists back, padded -/

/-- The elements of `l`, then nothing up to length `n`. -/
def padTo (n : ℕ) (l : List α) : List (Option α) := l.map some ++ List.replicate (n - l.length) none

theorem getElem?_padTo {n : ℕ} {l : List α} (hl : l.length ≤ n) (j : ℕ) :
    (padTo n l)[j]? = if j < n then some l[j]? else none := by
  unfold padTo
  by_cases hj : j < l.length
  · rw [List.getElem?_append_left (by simpa using hj)]
    simp [hj, Nat.lt_of_lt_of_le hj hl]
  · rw [List.getElem?_append_right (by simpa using hj)]
    by_cases hjn : j < n
    · simp [List.getElem?_replicate, hj, hjn]
      omega
    · simp [List.getElem?_replicate, hjn]
      omega

/-- Column `i` of the rows of a weak zip is list `i` padded with nothing to the longest length,
every cell present. -/
theorem columnOf_zipRows_true {L : List (List α)} {i : ℕ} (hi : i < L.length) :
    columnOf i (zipRows true L) = (padTo (zipLength true L) L[i]).map some := by
  have hle : L[i].length ≤ zipLength true L := le_zipLength_true L[i] (List.getElem_mem hi)
  apply List.ext_getElem?
  intro j
  rw [List.getElem?_map, getElem?_padTo hle, columnOf, List.getElem?_map, getElem?_zipRows]
  by_cases hj : j < zipLength true L
  · simp [hj, hi]
  · simp [hj]

/-- **Unzipping a weak zip gives its lists back, padded.** Over inputs that hold the lists `L`,
after any schedule of calls on the columns of an unbounded hub over the weak zip, column `i` has
handed out a prefix of list `i` padded with nothing to the longest length, and if it is live,
drained it hands out the rest. -/
theorem unzip_zip_columns {inputs : List (Feed σ α)} {R : σ → List (List α) → Prop}
    (hin : ∀ (i : ℕ) (f : Feed σ α), inputs[i]? = some f → f.YieldsAt R i)
    {L : List (List α)} (hL : L.length = inputs.length) {s : σ} (hs : R s L)
    (calls : List ForkCall) (i : ℕ) (hi : i < L.length) :
    ∃ k, (delivered i ((Queues.create L.length none).run (Zip.feed true inputs) calls
        (#[], s)).1).map (·[i]?) = ((padTo (zipLength true L) L[i]).map some).take k ∧
      (((Queues.create L.length none).run (Zip.feed true inputs) calls (#[], s)).2.1.live i =
          true → ∀ fuel, zipLength true L < fuel →
        ((Queues.column (Zip.feed true inputs) i).takeAll fuel []
          ((Queues.create L.length none).run (Zip.feed true inputs) calls (#[], s)).2).1 =
            .ok (((padTo (zipLength true L) L[i]).map some).drop k)) := by
  have hat : ZipAt inputs R true (#[], s) (zipRows true L) := ⟨rfl, L, hL, hs, rfl⟩
  obtain ⟨k, hdel, hdrain⟩ := unzip_columns (Zip.yields hin true) hat L.length calls i hi
  have hcol := columnOf_zipRows_true hi
  refine ⟨k, ?_, fun hl fuel hfuel => ?_⟩
  · rw [hdel, ← hcol, columnOf, List.map_take]
  · rw [hdrain hl fuel (by rwa [length_zipRows]), ← hcol]
    simp [columnOf, List.map_drop]

/-! ## Zip and unzip undo each other -/

/-- **Zip and unzip undo each other.** Over inputs that share a state and hold the lists `L`,
one per input, finite and never failing: the weak and the strong zip, drained, hand out the
rows of `L`; a weak zip has as many rows as the longest list and a strong one as the shortest
(every list's length is at most the one and at least the other, and some list has each), and a
zip of no inputs has none; row `j` holds each list's element at `j`, or nothing past its end.
For every upstream of rows and every width, after any schedule of calls on the columns of an
unbounded hub over it, column `i` has handed out the cells `i` of a prefix of the rows and, if
live, drained hands out those of the rest: one item per row, a row's cell `i` or nothing for a
shorter row. So column `i` of the unzip of the weak zip, read in any interleaving, is list `i`
padded with nothing to the longest length. -/
theorem zip_unzip_inverse {inputs : List (Feed σ α)} {R : σ → List (List α) → Prop}
    (hin : ∀ (i : ℕ) (f : Feed σ α), inputs[i]? = some f → f.YieldsAt R i)
    {L : List (List α)} (hL : L.length = inputs.length) {s : σ} (hs : R s L) :
    (∀ weak fuel, zipLength weak L < fuel →
      ((Zip.feed weak inputs).takeAll fuel [] (#[], s)).1 = .ok (zipRows weak L)) ∧
    (∀ l ∈ L, l.length ≤ zipLength true L ∧ zipLength false L ≤ l.length) ∧
    (L ≠ [] → ∀ weak, ∃ l ∈ L, l.length = zipLength weak L) ∧
    (L = [] → ∀ weak, zipRows weak L = []) ∧
    (∀ weak j, (zipRows weak L)[j]? =
      if j < zipLength weak L then some (L.map (·[j]?)) else none) ∧
    (∀ {τ β : Type} (up : Feed τ (List β)) (Q : τ → List (List β) → Prop), up.Yields Q →
      ∀ (rows : List (List β)) (t : τ), Q t rows → ∀ (w : ℕ) (calls : List ForkCall), ∀ i < w,
        ∃ k, delivered i ((Queues.create w none).run up calls t).1 = rows.take k ∧
          (((Queues.create w none).run up calls t).2.1.live i = true →
            ∀ fuel, rows.length < fuel →
              ((Queues.column up i).takeAll fuel [] ((Queues.create w none).run up calls t).2).1 =
                .ok (columnOf i (rows.drop k)))) ∧
    ∀ (calls : List ForkCall) (i : ℕ) (hi : i < L.length),
      ∃ k, (delivered i ((Queues.create L.length none).run (Zip.feed true inputs) calls
          (#[], s)).1).map (·[i]?) = ((padTo (zipLength true L) L[i]).map some).take k ∧
        (((Queues.create L.length none).run (Zip.feed true inputs) calls (#[], s)).2.1.live i =
            true → ∀ fuel, zipLength true L < fuel →
          ((Queues.column (Zip.feed true inputs) i).takeAll fuel []
            ((Queues.create L.length none).run (Zip.feed true inputs) calls (#[], s)).2).1 =
              .ok (((padTo (zipLength true L) L[i]).map some).drop k)) := by
  refine ⟨fun weak fuel hfuel => ?_, fun l hl => ⟨le_zipLength_true l hl, zipLength_false_le l hl⟩,
    fun hne weak => exists_length_eq_zipLength weak hne, ?_, fun weak j => getElem?_zipRows weak L j,
    fun up Q hup rows t ht w calls => unzip_columns hup ht w calls,
    unzip_zip_columns hin hL hs⟩
  · exact (Zip.yields hin weak).takeAll_nil ⟨rfl, L, hL, hs, rfl⟩ (by rwa [length_zipRows])
  · rintro rfl weak
    rfl

/-- Two lists of lengths two and one. -/
theorem zip_unzip_inverse_two_lists :
    ([[1, 2], [3]] : List (List ℕ)).length = ((List.range 2).map (Feed.nth (α := ℕ))).length ∧
    (∀ weak fuel, zipLength weak [[1, 2], [3]] < fuel →
      ((Zip.feed weak ((List.range 2).map Feed.nth)).takeAll fuel [] (#[], [[1, 2], [3]])).1 =
        .ok (zipRows weak [[1, 2], [3]])) ∧
    (∀ l ∈ ([[1, 2], [3]] : List (List ℕ)),
      l.length ≤ zipLength true [[1, 2], [3]] ∧ zipLength false [[1, 2], [3]] ≤ l.length) ∧
    (([[1, 2], [3]] : List (List ℕ)) ≠ [] →
      ∀ weak, ∃ l ∈ ([[1, 2], [3]] : List (List ℕ)), l.length = zipLength weak [[1, 2], [3]]) ∧
    (([[1, 2], [3]] : List (List ℕ)) = [] → ∀ weak, zipRows weak ([[1, 2], [3]] : List (List ℕ)) = []) ∧
    (∀ weak j, (zipRows weak ([[1, 2], [3]] : List (List ℕ)))[j]? =
      if j < zipLength weak ([[1, 2], [3]] : List (List ℕ)) then
        some (([[1, 2], [3]] : List (List ℕ)).map (·[j]?)) else none) ∧
    (∀ {τ β : Type} (up : Feed τ (List β)) (Q : τ → List (List β) → Prop), up.Yields Q →
      ∀ (rows : List (List β)) (t : τ), Q t rows → ∀ (w : ℕ) (calls : List ForkCall), ∀ i < w,
        ∃ k, delivered i ((Queues.create w none).run up calls t).1 = rows.take k ∧
          (((Queues.create w none).run up calls t).2.1.live i = true →
            ∀ fuel, rows.length < fuel →
              ((Queues.column up i).takeAll fuel [] ((Queues.create w none).run up calls t).2).1 =
                .ok (columnOf i (rows.drop k)))) ∧
    ∀ (calls : List ForkCall) (i : ℕ) (hi : i < ([[1, 2], [3]] : List (List ℕ)).length),
      ∃ k, (delivered i ((Queues.create 2 none).run (Zip.feed true ((List.range 2).map Feed.nth))
          calls (#[], [[1, 2], [3]])).1).map (·[i]?) =
            ((padTo (zipLength true [[1, 2], [3]]) [[1, 2], [3]][i]).map some).take k ∧
        (((Queues.create 2 none).run (Zip.feed true ((List.range 2).map Feed.nth)) calls
            (#[], [[1, 2], [3]])).2.1.live i = true →
          ∀ fuel, zipLength true ([[1, 2], [3]] : List (List ℕ)) < fuel →
            ((Queues.column (Zip.feed true ((List.range 2).map Feed.nth)) i).takeAll fuel []
              ((Queues.create 2 none).run (Zip.feed true ((List.range 2).map Feed.nth)) calls
                (#[], [[1, 2], [3]])).2).1 =
              .ok (((padTo (zipLength true [[1, 2], [3]]) [[1, 2], [3]][i]).map some).drop k)) :=
  ⟨rfl, zip_unzip_inverse (Feed.yieldsAt_nths 2) rfl rfl⟩

end LazySeq
