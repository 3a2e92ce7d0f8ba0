import Mathlib
import LazySeq.Proofs.Stream.Transient
import LazySeq.Proofs.Stream.Lookahead

/-!
# Adapters that lose nothing to a failed read

Each adapter here, over inputs that fail for a while (`Feed.Transient`), fails for a while in
turn and otherwise hands out what it hands out over the same inputs without the failures. A
failure of an input reaches the consumer as a failure of the adapter, and the adapter resumes
where the input does.

* `Feed.map` and `Feed.tap` (which notes each element handed out, as a `peek` does) hand out the
  input's sequence transformed, resp. as it is.
* `Limit` hands out the first `n` elements (`Limit.Within`).
* `Filter` hands out the passing elements of a finite input read within its budget
  (`Filter.Passes`). What it reads ahead, an element or a failure, is kept, so a failure met by a
  look ahead is handed out by the next `tryNext`, and reading resumes after it.
* `Concat` hands out its parts one after another (`Concat.Joined`), over parts that each behave
  as a sequence while the others wait.
* `Map2` hands out the pairwise combination of its inputs when the right input never fails
  (`Map2.Zipped`). A failure of the left input is harmless: it comes before anything is read.
  One of the right input is not: the left element read just before it is lost
  (`Map2.retrying_flaky`).
-/

namespace LazySeq

variable {σ τ ω α β γ : Type}

namespace Feed

/-- A read of a transformed sequence answers the transformed answer. -/
theorem answer_map (g : α → β) (xs : Stream'.Seq α) : answer (xs.map g) = (answer xs).map g := by
  cases xs using Stream'.Seq.recOn with
  | nil => rfl
  | cons a xs =>
    rw [Stream'.Seq.map_cons, answer_cons, answer_cons]
    rfl

theorem head_map_isSome (g : α → β) (xs : Stream'.Seq α) :
    (xs.map g).head.isSome = xs.head.isSome := by
  cases xs using Stream'.Seq.recOn with
  | nil => rfl
  | cons a xs => simp [Stream'.Seq.map_cons]

/-! ## Transformed and noted elements -/

variable {f : Feed σ α} {R : σ → Stream'.Seq α → ℕ → Prop}

/-- The input's sequence with every element transformed by `g`. -/
def Mapped (g : α → β) (R : σ → Stream'.Seq α → ℕ → Prop) (s : σ) (ys : Stream'.Seq β)
    (k : ℕ) : Prop :=
  ∃ xs, R s xs k ∧ ys = xs.map g

theorem map_tryNext_of_fail {g : α → β} {s s' : σ} {e : SeqError}
    (ht : f.tryNext s = (.error (.fail e), s')) : (f.map g).tryNext s = (.error (.fail e), s') := by
  simp only [Feed.map, ht]
  rfl

theorem failsAt_map (g : α → β) {s : σ} : (f.map g).FailsAt s ↔ f.FailsAt s := by
  have hstep : (f.map g).tryNext s = ((f.tryNext s).1.map g, (f.tryNext s).2) := rfl
  unfold FailsAt
  rw [hstep]
  rcases f.tryNext s with ⟨_ | a, s₁⟩ <;> simp [Except.map]

/-- **A transformed input** hands out the transformed sequence. -/
theorem Transient.map (h : f.Transient R) (g : α → β) : (f.map g).Transient (Mapped g R) where
  hasNext := by
    rintro s _ k ⟨xs, hs, rfl⟩
    obtain ⟨b, s', hh, hh', hs', hb⟩ := h.hasNext hs
    refine ⟨b, s', hh, hh', ⟨xs, hs', rfl⟩, ?_⟩
    rw [head_map_isSome, failsAt_map]
    exact hb
  tryNext := by
    rintro s _ k ⟨xs, hs, rfl⟩
    rcases h.tryNext hs with hf | ⟨s', ht, hs'⟩
    · exact .inl (hf.lift id (fun _ _ => map_tryNext_of_fail) fun _ _ hs => ⟨xs, hs, rfl⟩)
    · refine .inr ⟨s', by simp [Feed.map, ht, answer_map], xs.tail, hs', ?_⟩
      rw [Stream'.Seq.map_tail]

theorem tap_tryNext_of_fail {note : σ → α → σ} {s s' : σ} {e : SeqError}
    (ht : f.tryNext s = (.error (.fail e), s')) : (f.tap note).tryNext s = (.error (.fail e), s') := by
  simp only [Feed.tap, ht]

theorem failsAt_tap (note : σ → α → σ) {s : σ} : (f.tap note).FailsAt s ↔ f.FailsAt s := by
  unfold FailsAt
  rcases ht : f.tryNext s with ⟨_ | a, s₁⟩ <;> simp [Feed.tap, ht]

/-- **An input that notes what it hands out** hands out its sequence as it is, when noting an
element keeps the state related to what is still to come. -/
theorem Transient.tap (h : f.Transient R) (note : σ → α → σ)
    (hnote : ∀ s xs k a, R s xs k → R (note s a) xs k) : (f.tap note).Transient R where
  hasNext := by
    intro s xs k hs
    obtain ⟨b, s', hh, hh', hs', hb⟩ := h.hasNext hs
    exact ⟨b, s', hh, hh', hs', by rwa [failsAt_tap]⟩
  tryNext := by
    intro s xs k hs
    rcases h.tryNext hs with hf | ⟨s', ht, hs'⟩
    · exact .inl (hf.lift id (fun _ _ => tap_tryNext_of_fail) fun _ _ hs => hs)
    · cases xs using Stream'.Seq.recOn with
      | nil =>
        rw [answer_nil] at ht
        exact .inr ⟨s', by simp [Feed.tap, ht, Outcome.exhausted], hs'⟩
      | cons a xs =>
        rw [answer_cons] at ht
        exact .inr ⟨note s' a, by simp [Feed.tap, ht], hnote _ _ _ a hs'⟩

end Feed

/-! ## The first `n` elements -/

namespace Limit

variable {f : Feed σ α} {R : σ → Stream'.Seq α → ℕ → Prop}

/-- A limit with `n` elements left hands out the first `n` elements of its input's sequence. -/
def Within (R : σ → Stream'.Seq α → ℕ → Prop) (p : ℕ × σ) (ys : Stream'.Seq α) (k : ℕ) :
    Prop :=
  ∃ xs, R p.2 xs k ∧ ys = Stream'.Seq.ofList (xs.take p.1)

theorem tryNext_of_fail {n : ℕ} {s s' : σ} {e : SeqError}
    (ht : f.tryNext s = (.error (.fail e), s')) :
    (Limit.feed f).tryNext (n + 1, s) = (.error (.fail e), (n + 1, s')) := by
  simp [Limit.feed, Limit.tryNext, ht]

theorem failsAt_succ {n : ℕ} {s : σ} : (Limit.feed f).FailsAt (n + 1, s) ↔ f.FailsAt s := by
  unfold Feed.FailsAt
  rcases ht : f.tryNext s with ⟨_ | a, s₁⟩ <;> simp [Limit.feed, Limit.tryNext, ht]

theorem head_ofList_take_succ_isSome (xs : Stream'.Seq α) (n : ℕ) :
    (Stream'.Seq.ofList (xs.take (n + 1))).head.isSome = xs.head.isSome := by
  cases xs using Stream'.Seq.recOn with
  | nil => simp [Stream'.Seq.take_nil]
  | cons a xs => simp [Stream'.Seq.take_succ_cons]

end Limit

/-- **A limit** hands out the first `n` elements of its input. -/
theorem Feed.Transient.limit {f : Feed σ α} {R : σ → Stream'.Seq α → ℕ → Prop} (h : f.Transient R) :
    (Limit.feed f).Transient (Limit.Within R) where
  hasNext := by
    rintro ⟨n, s⟩ _ k ⟨xs, hs, rfl⟩
    cases n with
    | zero => exact ⟨false, (0, s), rfl, rfl, ⟨xs, hs, rfl⟩, .inl (by simp [Stream'.Seq.take_zero])⟩
    | succ n =>
      obtain ⟨b, s', hh, hh', hs', hb⟩ := h.hasNext hs
      refine ⟨b, (n + 1, s'), by simp [Limit.feed, Limit.hasNext, hh],
        by simp [Limit.feed, Limit.hasNext, hh'], ⟨xs, hs', rfl⟩, ?_⟩
      rw [Limit.head_ofList_take_succ_isSome, Limit.failsAt_succ]
      exact hb
  tryNext := by
    rintro ⟨n, s⟩ _ k ⟨xs, hs, rfl⟩
    cases n with
    | zero =>
      refine .inr ⟨(0, s), ?_, xs, hs, by simp [Stream'.Seq.take_zero]⟩
      simp [Limit.feed, Limit.tryNext, Stream'.Seq.take_zero]
    | succ n =>
      rcases h.tryNext hs with hf | ⟨s', ht, hs'⟩
      · exact .inl (hf.lift (n + 1, ·) (fun _ _ => Limit.tryNext_of_fail) fun _ _ hs => ⟨xs, hs, rfl⟩)
      · cases xs using Stream'.Seq.recOn with
        | nil =>
          rw [answer_nil] at ht
          refine .inr ⟨(n + 1, s'), ?_, Stream'.Seq.nil, by simpa using hs', ?_⟩
          · simp [Limit.feed, Limit.tryNext, ht, Stream'.Seq.take_nil, Outcome.exhausted]
          · simp [Stream'.Seq.take_nil]
        | cons a xs =>
          rw [answer_cons] at ht
          refine .inr ⟨(n, s'), ?_, xs, by simpa using hs', ?_⟩
          · simp [Limit.feed, Limit.tryNext, ht, Stream'.Seq.take_succ_cons]
          · simp [Stream'.Seq.take_succ_cons]

/-! ## Passing elements -/

namespace Filter

variable {p : α → Bool} {fuel : ℕ} {input : Feed σ α} {R : σ → Stream'.Seq α → ℕ → Prop}

/-- What a filter still hands out: the passing elements of a finite list that its input still
holds, shorter than the budget, after what it read ahead. An element read ahead comes first; a
failure read ahead is handed out first and counts among the failures to come. -/
def Passes (p : α → Bool) (fuel : ℕ) (R : σ → Stream'.Seq α → ℕ → Prop) :
    Lookahead α × σ → Stream'.Seq α → ℕ → Prop
  | (none, s), ys, k => ∃ l : List α, R s l k ∧ l.length < fuel ∧ ys = ↑(l.filter p)
  | (some (.ok a), s), ys, k =>
    ∃ l : List α, R s l k ∧ l.length < fuel ∧ ys = ↑(a :: l.filter p)
  | (some (.error e), s), ys, k => e ≠ .exhausted ∧
    ∃ (l : List α) (k' : ℕ), k' < k ∧ R s l k' ∧ l.length < fuel ∧ ys = ↑(l.filter p)

/-- Reading ahead with nothing kept, within a budget of `n` reads, ends with the next passing
element kept, with a failure kept, or at the end of the input, where a read finds the end again. -/
theorem hasNext_none (hin : input.Transient R) :
    ∀ (n : ℕ) {s : σ} {l : List α} {k : ℕ}, R s l k → l.length < n → n ≤ fuel →
      ∃ b ahead s', hasNext p input n none s = (.ok b, ahead, s') ∧
        Passes p fuel R (ahead, s') ↑(l.filter p) k ∧
        (b = true ∧ ahead.isSome ∨
          b = false ∧ ahead = none ∧ l.filter p = [] ∧ input.pull s' = (.ok none, s'))
  | 0, _, _, _, _, hn, _ => absurd hn (Nat.not_lt_zero _)
  | n + 1, s, l, k, hs, hn, hfuel => by
    rcases hin.pull hs with ⟨e, s', k', he, hk, hp, hs'⟩ | ⟨s', hp, hs'⟩
    · -- a failure is kept, and counts among the failures to come
      refine ⟨true, some (.error e), s', ?_, ⟨he, l, k', hk, hs', by omega, rfl⟩, .inl ⟨rfl, rfl⟩⟩
      cases e <;> simp_all [hasNext]
    · cases l with
      | nil =>
        refine ⟨false, none, s', by simp_all [hasNext], ⟨[], by simpa using hs', by omega, rfl⟩,
          .inr ⟨rfl, rfl, rfl, hin.pull_end hs (by simpa using hp)⟩⟩
      | cons a l =>
        simp only [Stream'.Seq.ofList_cons, Stream'.Seq.head_cons, Stream'.Seq.tail_cons] at hp hs'
        by_cases ha : p a = true
        · refine ⟨true, some (.ok a), s', by simp [hasNext, hp, ha], ⟨l, hs', by simp at hn; omega,
            by simp [ha]⟩, .inl ⟨rfl, rfl⟩⟩
        · -- a failing element is passed over, and reading goes on
          obtain ⟨b, ahead, s'', hh, hrel, hend⟩ :=
            hasNext_none hin n hs' (by simp at hn; omega) (by omega)
          refine ⟨b, ahead, s'', by simp [hasNext, hp, ha, hh], ?_, ?_⟩
          · simpa [ha] using hrel
          · simpa [List.filter_cons, ha] using hend

/-- A look ahead keeps what the filter still hands out, and ends with an element or a failure
kept, or at the end, where it would end again. -/
theorem hasNext_passes (hin : input.Transient R) {ahead : Lookahead α} {s : σ}
    {ys : Stream'.Seq α} {k : ℕ} (hs : Passes p fuel R (ahead, s) ys k) :
    ∃ b ahead' s', hasNext p input fuel ahead s = (.ok b, ahead', s') ∧
      hasNext p input fuel ahead' s' = (.ok b, ahead', s') ∧ Passes p fuel R (ahead', s') ys k ∧
      (b = true ∧ ahead'.isSome ∨ b = false ∧ ahead' = none ∧ ys = Stream'.Seq.nil) := by
  cases ahead with
  | some x => exact ⟨true, some x, s, hasNext_some x, hasNext_some x, hs, .inl ⟨rfl, rfl⟩⟩
  | none =>
    obtain ⟨l, hl, hlen, rfl⟩ := hs
    obtain ⟨b, ahead', s', hh, hrel, hend⟩ := hasNext_none hin fuel hl hlen le_rfl
    rcases hend with ⟨rfl, hsome⟩ | ⟨rfl, rfl, hnil, hpull⟩
    · obtain ⟨x, rfl⟩ := Option.isSome_iff_exists.1 hsome
      exact ⟨true, some x, s', hh, hasNext_some x, hrel, .inl ⟨rfl, rfl⟩⟩
    · -- at the end a second look ahead reads the end again
      obtain ⟨m, rfl⟩ := Nat.exists_eq_add_of_lt hlen
      refine ⟨false, none, s', hh, by simp [hasNext, hpull], hrel, .inr ⟨rfl, rfl, ?_⟩⟩
      rw [hnil]
      rfl

/-- A `tryNext` hands out what its look ahead kept, or finds the end. -/
theorem tryNext_of_settled {ahead ahead' : Lookahead α} {s s' : σ} {b : Bool}
    (hh : hasNext p input fuel ahead s = (.ok b, ahead', s'))
    (hset : b = true ∧ ahead'.isSome ∨ b = false ∧ ahead' = none) :
    tryNext p input fuel ahead s = match ahead' with
      | some (.ok a) => (.ok a, none, s')
      | some (.error e) => (.error (.fail e), none, s')
      | none => (Outcome.exhausted, none, s') := by
  rcases hset with ⟨rfl, hsome⟩ | ⟨rfl, rfl⟩
  · obtain ⟨x, rfl⟩ := Option.isSome_iff_exists.1 hsome
    cases x <;> simp [tryNext, hh]
  · simp [tryNext, hh]

/-- A kept failure is handed out by the next `tryNext`. -/
theorem failsAt_error {e : SeqError} (he : e ≠ .exhausted) {s : σ} :
    (feed p fuel input).FailsAt (some (.error e), s) :=
  ⟨e, (none, s), he, by simp [feed, tryNext]⟩

end Filter

/-- **A filter** hands out the passing elements of its input, over inputs that hold a finite
list shorter than its budget. -/
theorem Feed.Transient.filter {input : Feed σ α} {R : σ → Stream'.Seq α → ℕ → Prop}
    (hin : input.Transient R) (p : α → Bool) (fuel : ℕ) :
    (Filter.feed p fuel input).Transient (Filter.Passes p fuel R) where
  hasNext := by
    rintro ⟨ahead, s⟩ ys k hs
    obtain ⟨b, ahead', s', hh, hh', hrel, hset⟩ := Filter.hasNext_passes hin hs
    refine ⟨b, (ahead', s'), by simp [Filter.feed, hh], by simp [Filter.feed, hh'], hrel, ?_⟩
    rcases hset with ⟨rfl, hsome⟩ | ⟨rfl, rfl, rfl⟩
    · obtain ⟨x, rfl⟩ := Option.isSome_iff_exists.1 hsome
      cases x with
      | ok a =>
        obtain ⟨l, -, -, rfl⟩ := hrel
        exact .inl (by simp)
      | error e => exact .inr ⟨rfl, Filter.failsAt_error hrel.1⟩
    · exact .inl rfl
  tryNext := by
    rintro ⟨ahead, s⟩ ys k hs
    obtain ⟨b, ahead', s', hh, -, hrel, hset⟩ := Filter.hasNext_passes hin hs
    have htry := Filter.tryNext_of_settled hh (hset.imp_right fun h => ⟨h.1, h.2.1⟩)
    rcases hset with ⟨rfl, hsome⟩ | ⟨rfl, rfl, rfl⟩
    · obtain ⟨x, rfl⟩ := Option.isSome_iff_exists.1 hsome
      cases x with
      | ok a =>
        obtain ⟨l, hl, hlen, rfl⟩ := hrel
        exact .inr ⟨(none, s'), by simp [Filter.feed, htry], l, by simpa using hl, hlen, by simp⟩
      | error e =>
        obtain ⟨he, l, k', hk, hl, hlen, rfl⟩ := hrel
        exact .inl ⟨e, (none, s'), k', he, hk, by simp [Filter.feed, htry], l, hl, hlen, rfl⟩
    · exact .inr ⟨(none, s'), by simp [Filter.feed, htry], by simpa using hrel⟩

/-! ## Parts one after another -/

namespace Concat

/-- The sequences of the parts, one after another. -/
def joined (xss : List (Stream'.Seq α)) : Stream'.Seq α :=
  xss.foldr Stream'.Seq.append Stream'.Seq.nil

@[simp] theorem joined_nil : joined ([] : List (Stream'.Seq α)) = Stream'.Seq.nil := rfl

@[simp] theorem joined_cons (xs : Stream'.Seq α) (xss : List (Stream'.Seq α)) :
    joined (xs :: xss) = xs.append (joined xss) := rfl

/-- The front part, the other parts waiting: its relation to its own sequence, with the other
parts' sequences kept. -/
def Front (P : List τ × ω → List (Stream'.Seq α) → ℕ → Prop) (ts : List τ)
    (xss : List (Stream'.Seq α)) (p : τ × ω) (xs : Stream'.Seq α) (k : ℕ) : Prop :=
  P (p.1 :: ts, p.2) (xs :: xss) k

/-- What a concatenation still hands out: the sequences of its parts, one after another. -/
def Joined (P : List τ × ω → List (Stream'.Seq α) → ℕ → Prop) (p : List τ × ω)
    (ys : Stream'.Seq α) (k : ℕ) : Prop :=
  ∃ xss, P p xss k ∧ ys = joined xss

/-- Parts that behave, through `P`, as one sequence each: the front part, with the others
waiting, behaves as its sequence; releasing a front part that has ended leaves the others as they
were; and there is one sequence per part. -/
structure Parts (part : Feed (τ × ω) α) (release : ω → τ → ω)
    (P : List τ × ω → List (Stream'.Seq α) → ℕ → Prop) : Prop where
  front : ∀ ts xss, part.Transient (Front P ts xss)
  released : ∀ t ts w xss k, P (t :: ts, w) (Stream'.Seq.nil :: xss) k → P (ts, release w t) xss k
  length : ∀ ts w xss k, P (ts, w) xss k → xss.length = ts.length

variable {part : Feed (τ × ω) α} {release : ω → τ → ω}
  {P : List τ × ω → List (Stream'.Seq α) → ℕ → Prop}

/-- Asked whether it has more, a concatenation drops and releases the ended parts in front, and
stops at the first part that answers `true`, or at the end. -/
theorem hasNext_cases (hp : Parts part release P) :
    ∀ (ts : List τ) {w : ω} {xss : List (Stream'.Seq α)} {k : ℕ}, P (ts, w) xss k →
      (∃ w', hasNext part release ts w = (.ok false, [], w') ∧ P ([], w') [] k ∧
        joined xss = Stream'.Seq.nil) ∨
      ∃ t' ts' w' xs xss', hasNext part release ts w = (.ok true, t' :: ts', w') ∧
        part.hasNext (t', w') = (.ok true, (t', w')) ∧
        P (t' :: ts', w') (xs :: xss') k ∧ joined xss = xs.append (joined xss') ∧
        (xs.head.isSome ∨ part.FailsAt (t', w'))
  | [], w, xss, k, hs => by
    have hnil : xss = [] := List.eq_nil_of_length_eq_zero (hp.length _ _ _ _ hs)
    subst hnil
    exact .inl ⟨w, rfl, hs, rfl⟩
  | t :: ts, w, xss, k, hs => by
    obtain ⟨xs, xss', rfl⟩ : ∃ xs xss', xss = xs :: xss' := by
      cases xss with
      | nil => simpa using hp.length _ _ _ _ hs
      | cons xs xss' => exact ⟨xs, xss', rfl⟩
    obtain ⟨b, ⟨t', w'⟩, hh, hh', hs', hb⟩ := (hp.front ts xss').hasNext (s := (t, w)) hs
    cases b with
    | true =>
      refine .inr ⟨t', ts, w', xs, xss', by simp [hasNext, hh], hh', hs', rfl, ?_⟩
      exact hb.imp (fun h => h.symm) fun h => h.2
    | false =>
      -- a part that answers `false` has ended: it is released and the next part is asked
      have hend : xs = Stream'.Seq.nil := by
        rcases hb with hb | ⟨hb, -⟩
        · exact Stream'.Seq.head_eq_none_iff.1 (Option.not_isSome_iff_eq_none.1 (by simp [← hb]))
        · cases hb
      subst hend
      have hrest := hp.released t' ts w' xss' k hs'
      rcases hasNext_cases hp ts hrest with
        ⟨w'', hn, hP, hj⟩ | ⟨t'', ts', w'', ys, yss, hn, hn', hP, hj, hy⟩
      · exact .inl ⟨w'', by simp [hasNext, hh, hn], hP, by simpa using hj⟩
      · exact .inr ⟨t'', ts', w'', ys, yss, by simp [hasNext, hh, hn], hn', hP, by simpa using hj, hy⟩

/-- After a look ahead that stopped at a part, `tryNext` reads that part. -/
theorem tryNext_of_hasNext {ts ts' : List τ} {w w' : ω} {t' : τ}
    (hh : hasNext part release ts w = (.ok true, t' :: ts', w')) :
    (feed part release).tryNext (ts, w) =
      ((part.tryNext (t', w')).1, ((part.tryNext (t', w')).2.1 :: ts', (part.tryNext (t', w')).2.2)) := by
  simp [feed, tryNext, hh]

/-- A front part whose look ahead has settled, and whose next call fails, makes the next call of
the concatenation fail. -/
theorem failsAt_of_front {t : τ} {ts : List τ} {w : ω} (hh : part.hasNext (t, w) = (.ok true, (t, w)))
    (hf : part.FailsAt (t, w)) : (feed part release).FailsAt (t :: ts, w) := by
  have hh' : hasNext part release (t :: ts) w = (.ok true, t :: ts, w) := by simp [hasNext, hh]
  obtain ⟨e, ⟨t', w'⟩, he, ht⟩ := hf
  refine ⟨e, (t' :: ts, w'), he, ?_⟩
  rw [tryNext_of_hasNext hh', ht]

end Concat

/-- **A concatenation** hands out the sequences of its parts one after another, over parts that
behave as sequences while the others wait. -/
theorem Feed.Transient.concat {part : Feed (τ × ω) α} {release : ω → τ → ω}
    {P : List τ × ω → List (Stream'.Seq α) → ℕ → Prop} (hp : Concat.Parts part release P) :
    (Concat.feed part release).Transient (Concat.Joined P) where
  hasNext := by
    rintro ⟨ts, w⟩ _ k ⟨xss, hs, rfl⟩
    rcases Concat.hasNext_cases hp ts hs with
      ⟨w', hh, hP, hj⟩ | ⟨t', ts', w', xs, xss', hh, hh', hP, hj, hy⟩
    · exact ⟨false, ([], w'), by simp [Concat.feed, hh], rfl, ⟨[], hP, hj⟩, .inl (by simp [hj])⟩
    · refine ⟨true, (t' :: ts', w'), by simp [Concat.feed, hh],
        by simp [Concat.feed, Concat.hasNext, hh'], ⟨xs :: xss', hP, hj⟩, ?_⟩
      rcases hy with hy | hf
      · left
        rw [hj]
        cases xs using Stream'.Seq.recOn with
        | nil => simp at hy
        | cons a xs => simp [Stream'.Seq.cons_append]
      · exact .inr ⟨rfl, Concat.failsAt_of_front hh' hf⟩
  tryNext := by
    rintro ⟨ts, w⟩ _ k ⟨xss, hs, rfl⟩
    rcases Concat.hasNext_cases hp ts hs with
      ⟨w', hh, hP, hj⟩ | ⟨t', ts', w', xs, xss', hh, -, hP, hj, hy⟩
    · refine .inr ⟨([], w'), ?_, [], hP, by simp [hj]⟩
      simp [Concat.feed, Concat.tryNext, hh, hj]
    · rw [hj]
      rcases (hp.front ts' xss').tryNext (s := (t', w')) hP with
        ⟨e, ⟨t'', w''⟩, k', he, hk, ht, hrel⟩ | ⟨⟨t'', w''⟩, ht, hrel⟩
      · -- the part's failure is the concatenation's, and the part stays in front
        refine .inl ⟨e, (t'' :: ts', w''), k', he, hk, ?_, xs :: xss', hrel, rfl⟩
        rw [Concat.tryNext_of_hasNext hh, ht]
      · cases xs using Stream'.Seq.recOn with
        | nil =>
          -- a part with nothing left answered `true` only for a failure to come
          obtain ⟨e, p', he, ht'⟩ := hy.resolve_left (by simp)
          rw [ht] at ht'
          exact absurd (Prod.mk.inj ht').1 (answer_ne_fail _ he)
        | cons a xs =>
          refine .inr ⟨(t'' :: ts', w''), ?_, xs :: xss', by simpa [Concat.Front] using hrel, ?_⟩
          · rw [Concat.tryNext_of_hasNext hh, ht]
            simp [Stream'.Seq.cons_append]
          · simp [Stream'.Seq.cons_append]

/-! ## Pairwise combination -/

namespace Map2

variable {σ₁ σ₂ : Type} {fL : Feed σ₁ α} {fR : Feed σ₂ β} {RL : σ₁ → Stream'.Seq α → ℕ → Prop}
  {RR : σ₂ → Stream'.Seq β → ℕ → Prop} {g : α → β → γ}

/-- What a pairwise map of two inputs side by side still hands out: the pairwise combination of
their sequences. The right input has no failure to come. -/
def Zipped (g : α → β → γ) (RL : σ₁ → Stream'.Seq α → ℕ → Prop)
    (RR : σ₂ → Stream'.Seq β → ℕ → Prop) (p : σ₁ × σ₂) (zs : Stream'.Seq γ) (k : ℕ) : Prop :=
  ∃ xs ys, RL p.1 xs k ∧ RR p.2 ys 0 ∧ zs = Stream'.Seq.zipWith g xs ys

/-- The two inputs of a pairwise map side by side. -/
abbrev onSides (g : α → β → γ) (fL : Feed σ₁ α) (fR : Feed σ₂ β) : Feed (σ₁ × σ₂) γ :=
  Map2.feed g fL.onLeft fR.onRight

theorem hasNext_false {s₁ s₁' : σ₁} {s₂ : σ₂} (hh : fL.hasNext s₁ = (.ok false, s₁')) :
    Map2.hasNext fL.onLeft fR.onRight (s₁, s₂) = (.ok false, (s₁', s₂)) := by
  simp [Map2.hasNext, hh]

theorem hasNext_true {s₁ s₁' : σ₁} {s₂ s₂' : σ₂} {b : Bool} (hh : fL.hasNext s₁ = (.ok true, s₁'))
    (hr : fR.hasNext s₂ = (.ok b, s₂')) :
    Map2.hasNext fL.onLeft fR.onRight (s₁, s₂) = (.ok b, (s₁', s₂')) := by
  simp [Map2.hasNext, hh, hr]

/-- After a look ahead that answered `false`, a call finds the end. -/
theorem tryNext_of_false {p p' : σ₁ × σ₂} (hh : Map2.hasNext fL.onLeft fR.onRight p = (.ok false, p')) :
    (onSides g fL fR).tryNext p = (Outcome.exhausted, p') := by
  simp [Map2.feed, Map2.tryNext, hh]

theorem not_failsAt_of_false {p p' : σ₁ × σ₂}
    (hh : Map2.hasNext fL.onLeft fR.onRight p = (.ok false, p')) : ¬(onSides g fL fR).FailsAt p := by
  rintro ⟨e, p'', he, ht⟩
  rw [tryNext_of_false hh] at ht
  exact he (by cases ht; rfl)

/-- A call after looks ahead that both answered `true` reads the left input, then the right. -/
theorem tryNext_true {s₁ s₁' : σ₁} {s₂ s₂' : σ₂} (hh : fL.hasNext s₁ = (.ok true, s₁'))
    (hr : fR.hasNext s₂ = (.ok true, s₂')) :
    (onSides g fL fR).tryNext (s₁, s₂) =
      match fL.tryNext s₁' with
      | (.error h, t₁) => (.error h, (t₁, s₂'))
      | (.ok a, t₁) =>
        match fR.tryNext s₂' with
        | (.error h, t₂) => (.error h, (t₁, t₂))
        | (.ok b, t₂) => (.ok (g a b), (t₁, t₂)) := by
  rcases ht : fL.tryNext s₁' with ⟨_ | a, t₁⟩
  · simp [Map2.feed, Map2.tryNext, Map2.hasNext, hh, hr, ht]
  · rcases hu : fR.tryNext s₂' with ⟨_ | b, t₂⟩ <;>
      simp [Map2.feed, Map2.tryNext, Map2.hasNext, hh, hr, ht, hu]

/-- A call of a pairwise map fails exactly when, both looks ahead answering `true`, the left
input's call fails. -/
theorem failsAt_iff (hL : fL.Transient RL) (hR : fR.Transient RR) {s₁ : σ₁} {s₂ : σ₂}
    {xs : Stream'.Seq α} {ys : Stream'.Seq β} {k : ℕ} (hs₁ : RL s₁ xs k) (hs₂ : RR s₂ ys 0) :
    (onSides g fL fR).FailsAt (s₁, s₂) ↔
      ∃ s₁', fL.hasNext s₁ = (.ok true, s₁') ∧ ys.head.isSome ∧ fL.FailsAt s₁' := by
  obtain ⟨b₁, s₁', hh, -, hs₁', -⟩ := hL.hasNext hs₁
  obtain ⟨s₂', hr, hs₂'⟩ := hR.hasNext_clean hs₂
  cases b₁ with
  | false =>
    simp only [hh, Prod.mk.injEq, Except.ok.injEq, Bool.false_eq_true, false_and, exists_false,
      iff_false]
    exact not_failsAt_of_false (hasNext_false hh)
  | true =>
    cases hy : ys.head.isSome with
    | false =>
      rw [hy] at hr
      simp only [Bool.false_eq_true, false_and, and_false, exists_false, iff_false]
      exact not_failsAt_of_false (hasNext_true hh hr)
    | true =>
      rw [hy] at hr
      simp only [hh, Prod.mk.injEq, true_and, exists_eq_left']
      rw [Feed.FailsAt, Feed.FailsAt, tryNext_true hh hr]
      obtain ⟨b, ys', rfl⟩ : ∃ b ys', ys = Stream'.Seq.cons b ys' := by
        cases ys using Stream'.Seq.recOn with
        | nil => simp at hy
        | cons b ys' => exact ⟨b, ys', rfl⟩
      obtain ⟨t₂, hrt, -⟩ := hR.tryNext_clean hs₂'
      rw [Feed.answer_cons] at hrt
      rcases fL.tryNext s₁' with ⟨_ | a, t₁⟩
      · simp
      · simp [hrt]

/-- A left input whose look ahead has settled and whose next call fails makes the pairwise map's
next call fail, while the right input goes on. -/
theorem failsAt_of_left (hL : fL.Transient RL) (hR : fR.Transient RR) {s₁ : σ₁} {s₂ : σ₂}
    {xs : Stream'.Seq α} {ys : Stream'.Seq β} {k : ℕ} (hs₁ : RL s₁ xs k) (hs₂ : RR s₂ ys 0)
    (hh : fL.hasNext s₁ = (.ok true, s₁)) (hy : ys.head.isSome) (hf : fL.FailsAt s₁) :
    (onSides g fL fR).FailsAt (s₁, s₂) :=
  (failsAt_iff hL hR hs₁ hs₂).2 ⟨s₁, hh, hy, hf⟩

theorem head_zipWith_isSome (xs : Stream'.Seq α) (ys : Stream'.Seq β) :
    (Stream'.Seq.zipWith g xs ys).head.isSome = (xs.head.isSome && ys.head.isSome) := by
  cases xs using Stream'.Seq.recOn with
  | nil => simp
  | cons a xs =>
    cases ys using Stream'.Seq.recOn with
    | nil => simp
    | cons b ys => simp [Stream'.Seq.zipWith_cons_cons]

end Map2

/-- **A pairwise map** hands out the pairwise combination of its inputs when the right input has
no failure to come. -/
theorem Feed.Transient.map2 {σ₁ σ₂ : Type} {fL : Feed σ₁ α} {fR : Feed σ₂ β}
    {RL : σ₁ → Stream'.Seq α → ℕ → Prop} {RR : σ₂ → Stream'.Seq β → ℕ → Prop}
    (hL : fL.Transient RL) (hR : fR.Transient RR) (g : α → β → γ) :
    (Map2.onSides g fL fR).Transient (Map2.Zipped g RL RR) where
  hasNext := by
    rintro ⟨s₁, s₂⟩ _ k ⟨xs, ys, hs₁, hs₂, rfl⟩
    obtain ⟨b₁, s₁', hh, hh₁, hs₁', hb₁⟩ := hL.hasNext hs₁
    cases b₁ with
    | false =>
      -- the left input has ended
      have hxs : xs = Stream'.Seq.nil := by
        rcases hb₁ with hb | ⟨hb, -⟩
        · exact Stream'.Seq.head_eq_none_iff.1 (Option.not_isSome_iff_eq_none.1 (by simp [← hb]))
        · cases hb
      subst hxs
      exact ⟨false, (s₁', s₂), Map2.hasNext_false hh, Map2.hasNext_false hh₁,
        ⟨_, ys, hs₁', hs₂, rfl⟩, .inl (by simp)⟩
    | true =>
      obtain ⟨b₂, s₂', hr, hr₂, hs₂', hb₂⟩ := hR.hasNext hs₂
      have hb₂' : b₂ = ys.head.isSome := hb₂.resolve_right fun h => hR.not_failsAt hs₂' h.2
      subst hb₂'
      refine ⟨ys.head.isSome, (s₁', s₂'), Map2.hasNext_true hh hr, Map2.hasNext_true hh₁ hr₂,
        ⟨xs, ys, hs₁', hs₂', rfl⟩, ?_⟩
      rw [Map2.head_zipWith_isSome]
      by_cases hx : xs.head.isSome = true
      · exact .inl (by simp [hx])
      · -- the left input answered `true` for a failure to come
        cases hy : ys.head.isSome with
        | false => exact .inl (by simp)
        | true =>
          have hf : fL.FailsAt s₁' := (hb₁.resolve_left fun h => hx h.symm).2
          exact .inr ⟨rfl, Map2.failsAt_of_left hL hR hs₁' hs₂' hh₁ hy hf⟩
  tryNext := by
    rintro ⟨s₁, s₂⟩ _ k ⟨xs, ys, hs₁, hs₂, rfl⟩
    obtain ⟨b₁, s₁', hh, -, hs₁', hb₁⟩ := hL.hasNext hs₁
    cases b₁ with
    | false =>
      have hxs : xs = Stream'.Seq.nil := by
        rcases hb₁ with hb | ⟨hb, -⟩
        · exact Stream'.Seq.head_eq_none_iff.1 (Option.not_isSome_iff_eq_none.1 (by simp [← hb]))
        · cases hb
      subst hxs
      exact .inr ⟨(s₁', s₂), by rw [Map2.tryNext_of_false (Map2.hasNext_false hh)]; simp,
        _, ys, hs₁', hs₂, by simp⟩
    | true =>
      obtain ⟨s₂', hr, hs₂'⟩ := hR.hasNext_clean hs₂
      cases ys using Stream'.Seq.recOn with
      | nil =>
        exact .inr ⟨(s₁', s₂'), by rw [Map2.tryNext_of_false (Map2.hasNext_true hh hr)]; simp,
          xs, _, hs₁', hs₂', by simp⟩
      | cons b ys =>
        simp only [Stream'.Seq.head_cons, Option.isSome_some] at hr
        have htry : (Map2.onSides g fL fR).tryNext (s₁, s₂) = _ := Map2.tryNext_true hh hr
        rcases hL.tryNext hs₁' with ⟨e, t₁, k', he, hk, ht, ht₁⟩ | ⟨t₁, ht, ht₁⟩
        · -- the left input's failure is the pairwise map's, and nothing was read
          exact .inl ⟨e, (t₁, s₂'), k', he, hk, by simp [htry, ht], xs, _, ht₁, hs₂', rfl⟩
        · cases xs using Stream'.Seq.recOn with
          | nil =>
            refine .inr ⟨(t₁, s₂'), ?_, _, _, by simpa using ht₁, hs₂', by simp⟩
            rw [answer_nil] at ht
            simp [htry, ht, Outcome.exhausted]
          | cons a xs =>
            obtain ⟨t₂, hu, ht₂⟩ := hR.tryNext_clean hs₂'
            rw [answer_cons] at ht hu
            refine .inr ⟨(t₁, t₂), ?_, xs, ys, by simpa using ht₁, by simpa using ht₂, ?_⟩
            · simp [htry, ht, hu, Stream'.Seq.zipWith_cons_cons]
            · simp [Stream'.Seq.zipWith_cons_cons]

end LazySeq
