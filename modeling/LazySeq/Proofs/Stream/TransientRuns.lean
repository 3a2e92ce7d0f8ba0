import Mathlib
import LazySeq.Proofs.Stream.Transient
import LazySeq.Proofs.Stream.Runs

/-!
# Run adapters that lose nothing to a failed read

Over an input that fails for a while (`Feed.Transient`) and holds a finite list read within the
budget, each run adapter hands out what it hands out over the list without the failures.

* `GroupBy` keeps the run read so far when a failure interrupts it, and the next call goes on
  with it (`GroupBy.Grouped`).
* `KeepFirst` keeps a failure met while reading ahead and hands it out next; `last` stays, so the
  elements after the failure are compared as before (`KeepFirst.Kept`).
* `KeepLast` keeps the latest element read when a failure interrupts a run, and the next call
  compares the rest of the run with that element instead of the run's first. The two agree when
  an element `same` as another compares with every element as that other does (`AnchorFree`), as
  an equivalence does; for any comparison they agree when nothing fails (`KeepLast.Held`).
  Tolerant comparison of keys is not anchor-free: with keys `0`, `0.9`, `1.5` at tolerance `1`, a
  failure after `0.9` makes `1.5` continue the run instead of starting one.
-/

namespace LazySeq

variable {σ α : Type}

/-- Which element of a run stands for it does not matter: an element `same` as another compares
with every element as that other does. -/
def AnchorFree (same : α → α → Bool) : Prop :=
  ∀ a b x, same b a = true → same x b = same x a

/-! ## Groups -/

namespace GroupBy

variable {same : α → α → Bool} {fuel : ℕ} {input : Feed σ α} {R : σ → Stream'.Seq α → ℕ → Prop}

/-- What a grouping still hands out: the runs of the run begun followed by a finite list that its
input still holds, shorter than the budget. The run begun holds elements `same` as its first. -/
def Grouped (same : α → α → Bool) (fuel : ℕ) (R : σ → Stream'.Seq α → ℕ → Prop)
    (p : Array α × σ) (gs : Stream'.Seq (List α)) (k : ℕ) : Prop :=
  ∃ rest : List α, R p.2 ↑rest k ∧ rest.length < fuel ∧
    (∀ a ∈ p.1.toList.head?, ∀ y ∈ p.1.toList.tail, same y a = true) ∧
    gs = ↑(runs same (p.1.toList ++ rest))

/-- Extending a run within a budget of `n` reads: a failure keeps the run read so far, with the
same runs to come, or the run is handed out with the stretch of the input `same` as its first,
and the element that ends the stretch begins the next run. -/
theorem extend_cases (same : α → α → Bool) (hin : input.Transient R) (first : α) :
    ∀ (n : ℕ) (more : List α) {s : σ} {rest : List α} {k : ℕ}, R s ↑rest k → rest.length < n →
      n ≤ fuel → (∀ y ∈ more, same y first = true) →
      Feed.Fails (fun p : Array α × σ => extend same input first n p.1 p.2) (Grouped same fuel R)
          ((first :: more).toArray, s) ↑(runs same (first :: (more ++ rest))) k ∨
        ∃ s', extend same input first n (first :: more).toArray s =
            (.ok (first :: (more ++ rest.takeWhile (same · first))),
              (rest.dropWhile (same · first)).head?.toList.toArray, s') ∧
          R s' ↑(rest.dropWhile (same · first)).tail k
  | 0, _, _, _, _, _, hn, _, _ => absurd hn (Nat.not_lt_zero _)
  | n + 1, more, s, rest, k, hs, hn, hfuel, hmore => by
    rcases hin.pull hs with ⟨e, s', k', he, hk, hp, hs'⟩ | ⟨s', hp, hs'⟩
    · -- the failure keeps the run read so far
      refine .inl ⟨e, ((first :: more).toArray, s'), k', he, hk, by simp [extend, hp], rest, hs',
        by omega, by simpa using hmore, by simp⟩
    · cases rest with
      | nil =>
        simp only [Stream'.Seq.ofList_nil, Stream'.Seq.head_nil] at hp
        exact .inr ⟨s', by simp [extend, hp], by simpa using hs'⟩
      | cons x rest =>
        simp only [Stream'.Seq.ofList_cons, Stream'.Seq.head_cons, Stream'.Seq.tail_cons] at hp hs'
        by_cases hx : same x first = true
        · -- `x` joins the run, and the run goes on within one read less
          have hext : extend same input first (n + 1) (first :: more).toArray s =
              extend same input first n (first :: (more ++ [x])).toArray s' := by
            simp [extend, hp, hx]
          have hmore' : ∀ y ∈ more ++ [x], same y first = true := by
            intro y hy
            rcases List.mem_append.1 hy with hy | hy
            · exact hmore y hy
            · rwa [List.mem_singleton.1 hy]
          rcases extend_cases same hin first n (more ++ [x]) hs' (by simp at hn; omega) (by omega)
            hmore' with hf | ⟨s'', he, hs''⟩
          · exact .inl (Feed.Fails.lift id (fun _ _ h => by rwa [hext]) (fun _ _ h => by simpa using h) hf)
          · refine .inr ⟨s'', ?_, by simpa [List.dropWhile_cons, hx] using hs''⟩
            rw [hext, he]
            simp [hx]
        · exact .inr ⟨s', by simp [extend, hp, hx],
            by simpa [List.dropWhile_cons, hx] using hs'⟩

/-- The element that ended a run begins the next one: the state left holds the runs after it. -/
theorem grouped_next {first : α} {rest : List α} {s : σ} {k : ℕ}
    (hs : R s ↑(rest.dropWhile (same · first)).tail k) (hn : rest.length < fuel) :
    Grouped same fuel R ((rest.dropWhile (same · first)).head?.toList.toArray, s)
      ↑(runs same (rest.dropWhile (same · first))) k := by
  have hlen : (rest.dropWhile (same · first)).tail.length < fuel := by
    have := List.length_dropWhile_le (same · first) rest
    rw [List.length_tail]
    omega
  refine ⟨_, hs, hlen, ?_, ?_⟩
  · cases (rest.dropWhile (same · first)).head? <;> simp
  · simp [toList_head?_append_tail]

/-- A grouping with no run begun, whose input's look ahead has settled on a failure, fails. -/
theorem failsAt_empty {s : σ} (hh : input.hasNext s = (.ok true, s)) (hf : input.FailsAt s) :
    (feed same fuel input).FailsAt (#[], s) := by
  obtain ⟨e, s', he, hp⟩ := Feed.pull_of_failsAt hh hf
  exact ⟨e, (#[], s'), he, by simp [tryNext, hp]⟩

theorem head_runs_isSome (l : List α) :
    (Stream'.Seq.ofList (runs same l)).head.isSome = (Stream'.Seq.ofList l).head.isSome := by
  cases l <;> simp [runs_cons]

end GroupBy

/-- **Grouping** hands out the runs of its input, over inputs that hold a finite list shorter than
its budget. A failure in the middle of a run keeps the run read so far. -/
theorem Feed.Transient.groupBy {input : Feed σ α} {R : σ → Stream'.Seq α → ℕ → Prop}
    (hin : input.Transient R) (same : α → α → Bool) (fuel : ℕ) :
    (GroupBy.feed same fuel input).Transient (GroupBy.Grouped same fuel R) where
  hasNext := by
    rintro ⟨run, s⟩ _ k ⟨rest, hs, hn, hrun, rfl⟩
    cases hr : run.toList with
    | nil =>
      obtain rfl : run = #[] := Array.toList_eq_nil_iff.1 hr
      obtain ⟨b, s', hh, hh', hs', hb⟩ := hin.hasNext hs
      refine ⟨b, (#[], s'), by simp [GroupBy.hasNext, hh], by simp [GroupBy.hasNext, hh'],
        ⟨rest, hs', hn, by simp, by simp⟩, ?_⟩
      rcases hb with rfl | ⟨rfl, hf⟩
      · exact .inl (by simp [GroupBy.head_runs_isSome])
      · exact .inr ⟨rfl, GroupBy.failsAt_empty hh' hf⟩
    | cons a more =>
      obtain rfl : run = (a :: more).toArray := by rw [← hr, Array.toArray_toList]
      exact ⟨true, ((a :: more).toArray, s), by simp [GroupBy.hasNext],
        by simp [GroupBy.hasNext], ⟨rest, hs, hn, by simpa using hrun, by simp⟩,
        .inl (by simp [runs_cons])⟩
  tryNext := by
    rintro ⟨run, s⟩ _ k ⟨rest, hs, hn, hrun, rfl⟩
    cases hr : run.toList with
    | nil =>
      obtain rfl : run = #[] := Array.toList_eq_nil_iff.1 hr
      rcases hin.pull hs with ⟨e, s', k', he, hk, hp, hs'⟩ | ⟨s', hp, hs'⟩
      · -- nothing was read: the failure is passed on
        exact .inl ⟨e, (#[], s'), k', he, hk, by simp [GroupBy.tryNext, hp], rest, hs', hn,
          by simp, by simp⟩
      · cases rest with
        | nil =>
          simp only [Stream'.Seq.ofList_nil, Stream'.Seq.head_nil] at hp
          exact .inr ⟨(#[], s'), by simp [GroupBy.tryNext, hp], [], by simpa using hs', hn,
            by simp, by simp⟩
        | cons x rest =>
          -- the first element read begins the run
          simp only [Stream'.Seq.ofList_cons, Stream'.Seq.head_cons, Stream'.Seq.tail_cons] at hp hs'
          have htry := GroupBy.tryNext_empty_of_pull same hp fuel
          rcases GroupBy.extend_cases same hin x fuel [] hs' (by simp at hn; omega) le_rfl (by simp)
            with hf | ⟨s'', he, hs''⟩
          · exact .inl (Feed.Fails.lift id (fun _ _ h => by simpa [htry] using h)
              (fun _ _ h => by simpa using h) hf)
          · refine .inr ⟨((rest.dropWhile (same · x)).head?.toList.toArray, s''),
              by simp [htry, he, runs_cons], ?_⟩
            simpa [runs_cons] using GroupBy.grouped_next hs'' (by simp at hn; omega)
    | cons a more =>
      obtain rfl : run = (a :: more).toArray := by rw [← hr, Array.toArray_toList]
      have hmore : ∀ y ∈ more, same y a = true := by simpa using hrun
      have htry : GroupBy.tryNext same input fuel (a :: more).toArray s =
          GroupBy.extend same input a fuel (a :: more).toArray s :=
        GroupBy.tryNext_of_head same (by simp) fuel s
      rcases GroupBy.extend_cases same hin a fuel more hs hn le_rfl hmore with hf | ⟨s', he, hs'⟩
      · exact .inl (Feed.Fails.lift id (fun _ _ h => by simpa [htry] using h)
          (fun _ _ h => by simpa using h) hf)
      · refine .inr ⟨((rest.dropWhile (same · a)).head?.toList.toArray, s'),
          by simp [htry, he, runs_cons_append same hmore], ?_⟩
        simpa [runs_cons_append same hmore] using GroupBy.grouped_next hs' hn

/-! ## First elements of runs -/

namespace KeepFirst

variable {same : α → α → Bool} {fuel : ℕ} {input : Feed σ α} {R : σ → Stream'.Seq α → ℕ → Prop}

/-- What a first-of-run reader still hands out: the element read ahead, if any, then the elements
of a finite list its input still holds that are not `same` as the last one handed out. A failure
read ahead is handed out first and counts among the failures to come. -/
def Kept (same : α → α → Bool) (fuel : ℕ) (R : σ → Stream'.Seq α → ℕ → Prop) :
    KeepFirst α × σ → Stream'.Seq α → ℕ → Prop
  | (⟨pending, none, last⟩, s), ys, k => ∃ rest : List α, R s ↑rest k ∧ rest.length < fuel ∧
      ys = ↑(pending.toList ++ keepFirstBy same (pending.or last) rest)
  | (⟨pending, some e, last⟩, s), ys, k => e ≠ .exhausted ∧ pending = none ∧
      ∃ (rest : List α) (k' : ℕ), k' < k ∧ R s ↑rest k' ∧ rest.length < fuel ∧
        ys = ↑(keepFirstBy same last rest)

@[simp] theorem hasNext_failure (pending : Option α) (e : SeqError) (last : Option α) (n : ℕ)
    (s : σ) : hasNext same input n ⟨pending, some e, last⟩ s = (.ok true, ⟨pending, some e, last⟩, s) := by
  cases n <;> simp [hasNext]

/-- Reading ahead with nothing kept, within a budget of `n` reads: it keeps the first element not
`same` as the last one handed out, or a failure, or reaches the end, where it would end again. -/
theorem lookahead_cases (same : α → α → Bool) (hin : input.Transient R) (last : Option α) :
    ∀ (n : ℕ) {s : σ} {rest : List α} {k : ℕ}, R s ↑rest k → rest.length < n → n ≤ fuel →
      ∃ b st s', hasNext same input n ⟨none, none, last⟩ s = (.ok b, st, s') ∧
        hasNext same input fuel st s' = (.ok b, st, s') ∧
        Kept same fuel R (st, s') ↑(keepFirstBy same last rest) k ∧
        (b = true ∧ (st.pending.isSome ∨ st.failure.isSome) ∨
          b = false ∧ st = ⟨none, none, last⟩ ∧ keepFirstBy same last rest = [])
  | 0, _, _, _, _, hn, _ => absurd hn (Nat.not_lt_zero _)
  | n + 1, s, rest, k, hs, hn, hfuel => by
    rcases hin.pull hs with ⟨e, s', k', he, hk, hp, hs'⟩ | ⟨s', hp, hs'⟩
    · -- a failure is kept, and counts among the failures to come
      refine ⟨true, ⟨none, some e, last⟩, s', ?_, by simp, ⟨he, rfl, rest, k', hk, hs', by omega, rfl⟩,
        .inl ⟨rfl, by simp⟩⟩
      cases e <;> simp_all [hasNext]
    · cases rest with
      | nil =>
        simp only [Stream'.Seq.ofList_nil, Stream'.Seq.head_nil] at hp
        -- at the end a second look ahead reads the end again
        obtain ⟨m, rfl⟩ := Nat.exists_eq_add_of_lt (show 0 < fuel by omega)
        refine ⟨false, ⟨none, none, last⟩, s', by simp [hasNext, hp], ?_,
          ⟨[], by simpa using hs', by omega, by simp [keepFirstBy]⟩, .inr ⟨rfl, rfl, rfl⟩⟩
        simp [hasNext, hin.pull_end hs (by simpa using hp)]
      | cons x rest =>
        simp only [Stream'.Seq.ofList_cons, Stream'.Seq.head_cons, Stream'.Seq.tail_cons] at hp hs'
        have hlen : rest.length < n := by simp at hn; omega
        by_cases hx : (last.map (same x)).getD false = true
        · -- `x` continues the last run and is skipped
          obtain ⟨b, st, s'', hh, hh', hrel, hend⟩ := lookahead_cases same hin last n hs' hlen (by omega)
          have hskip : keepFirstBy same last (x :: rest) = keepFirstBy same last rest := by
            simp [keepFirstBy, hx]
          refine ⟨b, st, s'', ?_, hh', by rwa [hskip], by rwa [hskip]⟩
          cases last with
          | none => simp at hx
          | some l =>
            rw [hasNext]
            simpa [hp, show same x l = true by simpa using hx] using hh
        · -- `x` begins a run and is kept
          have hkeep : keepFirstBy same last (x :: rest) = x :: keepFirstBy same (some x) rest := by
            simp [keepFirstBy, hx]
          refine ⟨true, ⟨some x, none, last⟩, s', ?_, by cases fuel <;> simp [hasNext],
            ⟨rest, hs', by omega, by rw [hkeep]; rfl⟩, .inl ⟨rfl, by simp⟩⟩
          cases last with
          | none => simp [hasNext, hp]
          | some l => simp [hasNext, hp, show same x l = false by simpa using hx]

/-- A look ahead keeps what the reader still hands out, and ends with an element or a failure
kept, or at the end, where it would end again. -/
theorem hasNext_kept (hin : input.Transient R) {st : KeepFirst α} {s : σ} {ys : Stream'.Seq α}
    {k : ℕ} (hs : Kept same fuel R (st, s) ys k) :
    ∃ b st' s', hasNext same input fuel st s = (.ok b, st', s') ∧
      hasNext same input fuel st' s' = (.ok b, st', s') ∧ Kept same fuel R (st', s') ys k ∧
      (b = true ∧ (st'.pending.isSome ∨ st'.failure.isSome) ∨
        b = false ∧ st'.pending = none ∧ st'.failure = none ∧ ys = Stream'.Seq.nil) := by
  obtain ⟨pending, failure, last⟩ := st
  cases failure with
  | some e => exact ⟨true, _, s, by simp, by simp, hs, .inl ⟨rfl, by simp⟩⟩
  | none =>
    cases pending with
    | some a => exact ⟨true, _, s, by simp, by simp, hs, .inl ⟨rfl, by simp⟩⟩
    | none =>
      obtain ⟨rest, hr, hlen, rfl⟩ := hs
      obtain ⟨b, st', s', hh, hh', hrel, hend⟩ := lookahead_cases same hin last fuel hr hlen le_rfl
      refine ⟨b, st', s', hh, hh', by simpa using hrel, ?_⟩
      rcases hend with hend | ⟨rfl, rfl, hnil⟩
      · exact .inl hend
      · exact .inr ⟨rfl, rfl, rfl, by simp [hnil]⟩

/-- After a look ahead that settled, a call hands out the failure kept, or the element kept, or
finds the end. -/
theorem tryNext_of_settled {st st' : KeepFirst α} {s s' : σ} {b : Bool}
    (hh : hasNext same input fuel st s = (.ok b, st', s')) :
    tryNext same input fuel st s = match b, st'.failure, st'.pending with
      | true, some e, _ => (.error (.fail e), { st' with failure := none }, s')
      | true, none, some a => (.ok a, { st' with pending := none, last := some a }, s')
      | _, _, _ => (Outcome.exhausted, st', s') := by
  obtain ⟨pending, failure, last⟩ := st'
  cases b <;> cases failure <;> cases pending <;> simp [tryNext, hh]

end KeepFirst

/-- **The first-of-run reader** hands out the first element of every run of its input, over
inputs that hold a finite list shorter than its budget. A failure met while reading ahead is
handed out next, and reading resumes after it. -/
theorem Feed.Transient.keepFirst {input : Feed σ α} {R : σ → Stream'.Seq α → ℕ → Prop}
    (hin : input.Transient R) (same : α → α → Bool) (fuel : ℕ) :
    (KeepFirst.feed same fuel input).Transient (KeepFirst.Kept same fuel R) where
  hasNext := by
    rintro ⟨st, s⟩ ys k hs
    obtain ⟨b, ⟨pending, failure, last⟩, s', hh, hh', hrel, hset⟩ := KeepFirst.hasNext_kept hin hs
    refine ⟨b, (⟨pending, failure, last⟩, s'), by simp [KeepFirst.feed, hh],
      by simp [KeepFirst.feed, hh'], hrel, ?_⟩
    rcases hset with ⟨rfl, hsome⟩ | ⟨rfl, rfl, rfl, rfl⟩
    · cases failure with
      | some e =>
        -- the failure kept is what the next call hands out
        refine .inr ⟨rfl, e, (⟨pending, none, last⟩, s'), hrel.1, ?_⟩
        simp [KeepFirst.feed, KeepFirst.tryNext_of_settled hh']
      | none =>
        obtain ⟨a, rfl⟩ := Option.isSome_iff_exists.1 (by simpa using hsome)
        obtain ⟨rest, -, -, rfl⟩ := hrel
        exact .inl (by simp)
    · exact .inl rfl
  tryNext := by
    rintro ⟨st, s⟩ ys k hs
    obtain ⟨b, ⟨pending, failure, last⟩, s', hh, -, hrel, hset⟩ := KeepFirst.hasNext_kept hin hs
    have htry := KeepFirst.tryNext_of_settled hh
    rcases hset with ⟨rfl, hsome⟩ | ⟨rfl, rfl, rfl, rfl⟩
    · cases failure with
      | some e =>
        obtain ⟨he, rfl, rest, k', hk, hr, hlen, rfl⟩ := hrel
        exact .inl ⟨e, (⟨none, none, last⟩, s'), k', he, hk, by simp [KeepFirst.feed, htry],
          rest, hr, hlen, by simp⟩
      | none =>
        obtain ⟨a, rfl⟩ := Option.isSome_iff_exists.1 (by simpa using hsome)
        obtain ⟨rest, hr, hlen, rfl⟩ := hrel
        exact .inr ⟨(⟨none, none, some a⟩, s'), by simp [KeepFirst.feed, htry], rest, hr, hlen,
          by simp⟩
    · exact .inr ⟨(⟨none, none, last⟩, s'), by simp [KeepFirst.feed, htry], by simpa using hrel⟩

/-! ## Last elements of runs -/

namespace KeepLast

variable {same : α → α → Bool} {fuel : ℕ} {input : Feed σ α} {R : σ → Stream'.Seq α → ℕ → Prop}

/-- What a last-of-run reader still hands out: `keepLastBy` of the element held, if any, followed
by a finite list that its input still holds, shorter than the budget. -/
def Held (same : α → α → Bool) (fuel : ℕ) (R : σ → Stream'.Seq α → ℕ → Prop) (p : Option α × σ)
    (ys : Stream'.Seq α) (k : ℕ) : Prop :=
  ∃ rest : List α, R p.2 ↑rest k ∧ rest.length < fuel ∧ ys = ↑(keepLastBy same (p.1.toList ++ rest))

/-- With an anchor-free comparison, a run compared with any element `same` as its first goes on
as compared with its first. -/
theorem go_anchor (hfree : AnchorFree same) {anchor held : α} (h : held = anchor ∨ same held anchor)
    (p : α) (l : List α) : keepLastBy.go same anchor p l = keepLastBy.go same held p l := by
  have hpred : (same · anchor) = (same · held) := by
    rcases h with rfl | h
    · rfl
    · exact funext fun x => (hfree anchor held x h).symm
  rw [keepLastBy_go_eq, keepLastBy_go_eq, hpred]

/-- Extending a run within a budget of `n` reads, the element held `same` as the anchor: a
failure holds the latest element read, with the same elements to come when the comparison is
anchor-free, or the last element of the run is handed out and the element that ends it held. -/
theorem extend_cases (hin : input.Transient R) (hok : AnchorFree same ∨ Feed.Clean R) (anchor : α) :
    ∀ (n : ℕ) (held : α) {s : σ} {rest : List α} {k : ℕ}, R s ↑rest k → rest.length < n →
      n ≤ fuel → (held = anchor ∨ same held anchor) →
      (∃ e held' s' k', e ≠ .exhausted ∧ k' < k ∧
          extend same input anchor n held s = (.error (.fail e), some held', s') ∧
          Held same fuel R (some held', s') ↑(keepLastBy.go same anchor held rest) k') ∨
        ∃ s', extend same input anchor n held s =
            (.ok ((held :: rest.takeWhile (same · anchor)).getLast (List.cons_ne_nil _ _)),
              (rest.dropWhile (same · anchor)).head?, s') ∧
          R s' ↑(rest.dropWhile (same · anchor)).tail k
  | 0, _, _, _, _, _, hn, _, _ => absurd hn (Nat.not_lt_zero _)
  | n + 1, held, s, rest, k, hs, hn, hfuel, hheld => by
    rcases hin.pull hs with ⟨e, s', k', he, hk, hp, hs'⟩ | ⟨s', hp, hs'⟩
    · -- the failure holds the latest element read; nothing fails when the inputs are clean
      have hfree : AnchorFree same := hok.resolve_right fun hclean => by
        have := hclean _ _ _ hs
        omega
      refine .inl ⟨e, held, s', k', he, hk, by simp [extend, hp], rest, hs', by omega, ?_⟩
      rw [go_anchor hfree hheld]
      rfl
    · cases rest with
      | nil =>
        simp only [Stream'.Seq.ofList_nil, Stream'.Seq.head_nil] at hp
        exact .inr ⟨s', by simp [extend, hp], by simpa using hs'⟩
      | cons x rest =>
        simp only [Stream'.Seq.ofList_cons, Stream'.Seq.head_cons, Stream'.Seq.tail_cons] at hp hs'
        by_cases hx : same x anchor = true
        · -- `x` replaces the element held
          have hext : extend same input anchor (n + 1) held s = extend same input anchor n x s' := by
            simp [extend, hp, hx]
          have hgo : keepLastBy.go same anchor held (x :: rest) = keepLastBy.go same anchor x rest := by
            simp [keepLastBy.go, hx]
          rcases extend_cases hin hok anchor n x hs' (by simp at hn; omega) (by omega) (.inr hx) with
            ⟨e, held', s'', k', he, hk, ht, hrel⟩ | ⟨s'', he, hs''⟩
          · exact .inl ⟨e, held', s'', k', he, hk, by rw [hext, ht], by rwa [hgo]⟩
          · refine .inr ⟨s'', ?_, by simpa [List.dropWhile_cons, hx] using hs''⟩
            rw [hext, he]
            simp [hx]
        · exact .inr ⟨s', by simp [extend, hp, hx],
            by simpa [List.dropWhile_cons, hx] using hs'⟩

/-- The element that ended a run is held: the state left holds the last elements of the runs
after it. -/
theorem held_next {anchor : α} {rest : List α} {s : σ} {k : ℕ}
    (hs : R s ↑(rest.dropWhile (same · anchor)).tail k) (hn : rest.length < fuel) :
    Held same fuel R ((rest.dropWhile (same · anchor)).head?, s)
      ↑(keepLastBy same (rest.dropWhile (same · anchor))) k := by
  have hlen : (rest.dropWhile (same · anchor)).tail.length < fuel := by
    have := List.length_dropWhile_le (same · anchor) rest
    rw [List.length_tail]
    omega
  exact ⟨_, hs, hlen, by simp [toList_head?_append_tail]⟩

/-- A reader holding nothing, whose input's look ahead has settled on a failure, fails. -/
theorem failsAt_none {s : σ} (hh : input.hasNext s = (.ok true, s)) (hf : input.FailsAt s) :
    (feed same fuel input).FailsAt (none, s) := by
  obtain ⟨e, s', he, hp⟩ := Feed.pull_of_failsAt hh hf
  exact ⟨e, (none, s'), he, by simp [tryNext, hp]⟩

theorem head_keepLastBy_isSome (l : List α) :
    (Stream'.Seq.ofList (keepLastBy same l)).head.isSome = (Stream'.Seq.ofList l).head.isSome := by
  cases l with
  | nil => simp [keepLastBy]
  | cons x l =>
    rw [keepLastBy, keepLastBy_go_eq]
    simp

/-- A run begun with the element held: a call fails, holding the latest element read, or hands
out the run's last element. -/
theorem tryNext_extend (hin : input.Transient R) (hok : AnchorFree same ∨ Feed.Clean R) {held : α}
    {s : σ} {p : Option α × σ} {rest : List α} {k : ℕ} (hs : R s ↑rest k) (hn : rest.length < fuel)
    (htry : tryNext same input fuel p.1 p.2 = extend same input held fuel held s) :
    Feed.Fails (feed same fuel input).tryNext (Held same fuel R) p
        ↑(keepLastBy same (held :: rest)) k ∨
      ∃ p', (feed same fuel input).tryNext p = (Feed.answer ↑(keepLastBy same (held :: rest)), p') ∧
        Held same fuel R p' (Stream'.Seq.ofList (keepLastBy same (held :: rest))).tail k := by
  rcases extend_cases hin hok held fuel held hs hn le_rfl (.inl rfl) with
    ⟨e, held', s', k', he, hk, ht, hrel⟩ | ⟨s', he, hs'⟩
  · exact .inl ⟨e, (some held', s'), k', he, hk, by simp [htry, ht], hrel⟩
  · -- the run's last element, then the last elements of the runs after it
    have hlast : keepLastBy same (held :: rest) =
        (held :: rest.takeWhile (same · held)).getLast (List.cons_ne_nil _ _) ::
          keepLastBy same (rest.dropWhile (same · held)) := by
      rw [keepLastBy, keepLastBy_go_eq]
    rw [hlast]
    exact .inr ⟨((rest.dropWhile (same · held)).head?, s'), by simp [htry, he],
      by simpa using held_next hs' hn⟩

end KeepLast

/-- **The last-of-run reader** hands out the last element of every run of its input, over inputs
that hold a finite list shorter than its budget, when its comparison is anchor-free or nothing
fails. -/
theorem Feed.Transient.keepLast {input : Feed σ α} {R : σ → Stream'.Seq α → ℕ → Prop}
    (hin : input.Transient R) {same : α → α → Bool} (hok : AnchorFree same ∨ Feed.Clean R)
    (fuel : ℕ) : (KeepLast.feed same fuel input).Transient (KeepLast.Held same fuel R) where
  hasNext := by
    rintro ⟨pending, s⟩ _ k ⟨rest, hs, hn, rfl⟩
    cases pending with
    | some held =>
      exact ⟨true, (some held, s), rfl, rfl, ⟨rest, hs, hn, rfl⟩,
        .inl (by simp [KeepLast.head_keepLastBy_isSome])⟩
    | none =>
      obtain ⟨b, s', hh, hh', hs', hb⟩ := hin.hasNext hs
      refine ⟨b, (none, s'), by simp [KeepLast.feed, KeepLast.hasNext, hh],
        by simp [KeepLast.feed, KeepLast.hasNext, hh'], ⟨rest, hs', hn, rfl⟩, ?_⟩
      rcases hb with rfl | ⟨rfl, hf⟩
      · exact .inl (by simp [KeepLast.head_keepLastBy_isSome])
      · exact .inr ⟨rfl, KeepLast.failsAt_none hh' hf⟩
  tryNext := by
    rintro ⟨pending, s⟩ _ k ⟨rest, hs, hn, rfl⟩
    cases pending with
    | some held =>
      exact KeepLast.tryNext_extend hin hok hs hn (by simp [KeepLast.tryNext])
    | none =>
      rcases hin.pull hs with ⟨e, s', k', he, hk, hp, hs'⟩ | ⟨s', hp, hs'⟩
      · exact .inl ⟨e, (none, s'), k', he, hk, by simp [KeepLast.feed, KeepLast.tryNext, hp],
          rest, hs', hn, rfl⟩
      · cases rest with
        | nil =>
          simp only [Stream'.Seq.ofList_nil, Stream'.Seq.head_nil] at hp
          exact .inr ⟨(none, s'), by simp [KeepLast.feed, KeepLast.tryNext, hp, keepLastBy],
            [], by simpa using hs', hn, rfl⟩
        | cons x rest =>
          -- the first element read begins the run
          simp only [Stream'.Seq.ofList_cons, Stream'.Seq.head_cons, Stream'.Seq.tail_cons] at hp hs'
          simpa using KeepLast.tryNext_extend hin hok hs' (by simp at hn; omega)
            (by simp [KeepLast.tryNext, hp])

end LazySeq
