import Mathlib
import LazySeq.Proofs.Stream.Transient

/-!
# Reading loops with a budget

A segmentation, a sample merge and a bucketing each read their input in a loop with a step
budget. `Feed.readLoop` is that loop: it takes the element held back, if there is one, or reads
the next; at the end of the input it stops, and on an element `step` goes on with a new state
(`.inl`) or is done (`.inr`). A failed read ends the loop with the state it had, so that the next
call resumes there.

**Main statements.**

* `Feed.readLoop_ofList_settles`: over a list, the loop answers, and any budget beyond the
  elements still to read gives the same answer.
* `Feed.Transient.readLoop`: over an input that fails for a while, the loop either fails, leaving
  a state from which the loop over the list answers what it answers from the start, or answers
  as the loop over the list does.
-/

namespace LazySeq

namespace Feed

variable {σ α β γ : Type}

/-- The list input hands out its head and leaves its tail. -/
@[simp] theorem ofList_pull (l : List α) : ofList.pull l = (.ok l.head?, l.tail) := by
  cases l <;> rfl

/-- What a reading loop does with a read: passes a failure on with the state it had, stops at the
end, and on an element goes on with `more` or is done. -/
def afterRead (step : γ → α → γ ⊕ (β × γ)) (stop : γ → β × γ)
    (more : γ → σ → Outcome β × γ × σ) (r : Outcome (Option α)) (c : γ) (s : σ) :
    Outcome β × γ × σ :=
  match r with
  | .error h => (.error h, c, s)
  | .ok none => (.ok (stop c).1, (stop c).2, s)
  | .ok (some a) =>
    match step c a with
    | .inl c => more c s
    | .inr (b, c) => (.ok b, c, s)

/-- A reading loop within a budget of `n` reads: the element `held` back, if any, and then those
of `f`. -/
def readLoop (f : Feed σ α) (held : γ → Option (α × γ)) (step : γ → α → γ ⊕ (β × γ))
    (stop : γ → β × γ) : ℕ → γ → σ → Outcome β × γ × σ
  | 0, c, s => (.error .outOfBudget, c, s)
  | n + 1, c, s =>
    match held c with
    | some (a, c) => afterRead step stop (readLoop f held step stop n) (.ok (some a)) c s
    | none => afterRead step stop (readLoop f held step stop n) (f.pull s).1 c (f.pull s).2

variable {held : γ → Option (α × γ)} {step : γ → α → γ ⊕ (β × γ)} {stop : γ → β × γ}

@[simp] theorem afterRead_error (more : γ → σ → Outcome β × γ × σ) (h : Halt) (c : γ) (s : σ) :
    afterRead step stop more (.error h) c s = (.error h, c, s) := rfl

@[simp] theorem afterRead_none (more : γ → σ → Outcome β × γ × σ) (c : γ) (s : σ) :
    afterRead step stop more (.ok none) c s = (.ok (stop c).1, (stop c).2, s) := rfl

theorem afterRead_inl {more : γ → σ → Outcome β × γ × σ} {c c' : γ} {a : α} (s : σ)
    (hs : step c a = .inl c') : afterRead step stop more (.ok (some a)) c s = more c' s := by
  simp [afterRead, hs]

theorem afterRead_inr {more : γ → σ → Outcome β × γ × σ} {c c' : γ} {a : α} {b : β} (s : σ)
    (hs : step c a = .inr (b, c')) : afterRead step stop more (.ok (some a)) c s = (.ok b, c', s) := by
  simp [afterRead, hs]

/-- The loop holds back at most one element: taking it leaves nothing held, and going on from a
state that holds nothing holds nothing. -/
structure HoldsOne (held : γ → Option (α × γ)) (step : γ → α → γ ⊕ (β × γ)) : Prop where
  taken : ∀ {c a c'}, held c = some (a, c') → held c' = none
  onward : ∀ {c a c'}, held c = none → step c a = .inl c' → held c' = none

/-- A loop that never holds an element back. -/
theorem holdsOne_none : HoldsOne (fun _ : γ => (none : Option (α × γ))) step where
  taken h := by cases h
  onward _ _ := rfl

/-- The elements a loop has still to read from the list `l`: the one held back, then `l`. -/
def toRead (held : γ → Option (α × γ)) (c : γ) (l : List α) : ℕ :=
  (held c).isSome.toNat + l.length

theorem toRead_of_none {c : γ} (hc : held c = none) (l : List α) : toRead held c l = l.length := by
  simp [toRead, hc]

/-- What taking the held element, every step and the stop keep, the loop keeps. -/
theorem readLoop_keeps (f : Feed σ α) (P : γ → Prop)
    (hheld : ∀ {c a c'}, held c = some (a, c') → P c → P c')
    (hstep : ∀ {c a c'}, step c a = .inl c' → P c → P c')
    (hdone : ∀ {c a b c'}, step c a = .inr (b, c') → P c → P c')
    (hstop : ∀ {c}, P c → P (stop c).2) :
    ∀ (n : ℕ) {c : γ} (s : σ), P c → P (f.readLoop held step stop n c s).2.1
  | 0, _, _, hc => hc
  | n + 1, c, s, hc => by
    -- the element read, held back or pulled, meets `step` or the stop
    have hafter : ∀ {c₁ : γ} (r : Outcome (Option α)) (s₁ : σ), P c₁ →
        P (afterRead step stop (f.readLoop held step stop n) r c₁ s₁).2.1 := by
      intro c₁ r s₁ hc₁
      rcases r with _ | _ | a
      · exact hc₁
      · exact hstop hc₁
      · cases hs : step c₁ a with
        | inl c₂ =>
          rw [afterRead_inl _ hs]
          exact readLoop_keeps f P hheld hstep hdone hstop n s₁ (hstep hs hc₁)
        | inr p =>
          rw [afterRead_inr _ hs]
          exact hdone hs hc₁
    simp only [readLoop]
    cases hh : held c with
    | some p => exact hafter _ _ (hheld hh hc)
    | none => exact hafter _ _ hc

/-! ## Over a list -/

theorem readLoop_ofList_unheld (hb : HoldsOne held step) (stop : γ → β × γ) :
    ∀ (l : List α) (c : γ), held c = none →
      ∃ b c' l', ∀ n, l.length < n → ofList.readLoop held step stop n c l = (.ok b, c', l')
  | [], c, hc => ⟨(stop c).1, (stop c).2, [], fun n hn => by
      obtain ⟨n, rfl⟩ : ∃ m, n = m + 1 := ⟨n - 1, by simp at hn; omega⟩
      simp [readLoop, hc]⟩
  | a :: t, c, hc => by
    cases hs : step c a with
    | inl c' =>
      -- the loop goes on over the tail, from a state that still holds nothing
      obtain ⟨b, c'', l', hrun⟩ := readLoop_ofList_unheld hb stop t c' (hb.onward hc hs)
      refine ⟨b, c'', l', fun n hn => ?_⟩
      obtain ⟨n, rfl⟩ : ∃ m, n = m + 1 := ⟨n - 1, by simp at hn; omega⟩
      simp only [readLoop, hc, ofList_pull, List.head?_cons, List.tail_cons]
      rw [afterRead_inl _ hs, hrun n (by simp at hn; omega)]
    | inr p =>
      obtain ⟨b, c'⟩ := p
      refine ⟨b, c', t, fun n hn => ?_⟩
      obtain ⟨n, rfl⟩ : ∃ m, n = m + 1 := ⟨n - 1, by simp at hn; omega⟩
      simp only [readLoop, hc, ofList_pull, List.head?_cons, List.tail_cons]
      rw [afterRead_inr _ hs]

/-- **Over a list the loop settles**: it answers, and every budget beyond the elements still to
read gives the same answer. -/
theorem readLoop_ofList_settles (hb : HoldsOne held step) (stop : γ → β × γ) (c : γ)
    (l : List α) :
    ∃ b c' l', ∀ n, toRead held c l < n → ofList.readLoop held step stop n c l = (.ok b, c', l') := by
  cases hc : held c with
  | none =>
    simp only [toRead_of_none hc]
    exact readLoop_ofList_unheld hb stop l c hc
  | some p =>
    obtain ⟨a, c'⟩ := p
    have hc' := hb.taken hc
    have hread : toRead held c l = l.length + 1 := by simp [toRead, hc, Nat.add_comm]
    cases hs : step c' a with
    | inl c'' =>
      obtain ⟨b, d, l', hrun⟩ := readLoop_ofList_unheld hb stop l c'' (hb.onward hc' hs)
      refine ⟨b, d, l', fun n hn => ?_⟩
      obtain ⟨n, rfl⟩ : ∃ m, n = m + 1 := ⟨n - 1, by omega⟩
      simp only [readLoop, hc]
      rw [afterRead_inl _ hs, hrun n (by omega)]
    | inr p =>
      obtain ⟨b, d⟩ := p
      refine ⟨b, d, l, fun n hn => ?_⟩
      obtain ⟨n, rfl⟩ : ∃ m, n = m + 1 := ⟨n - 1, by omega⟩
      simp only [readLoop, hc]
      rw [afterRead_inr _ hs]

/-- Over a list, two budgets beyond the elements still to read give the same answer. -/
theorem readLoop_ofList_fuel (hb : HoldsOne held step) {c : γ} {l : List α} {n m : ℕ}
    (hn : toRead held c l < n) (hm : toRead held c l < m) :
    ofList.readLoop held step stop n c l = ofList.readLoop held step stop m c l := by
  obtain ⟨b, c', l', hrun⟩ := readLoop_ofList_settles hb stop c l
  rw [hrun n hn, hrun m hm]

/-! ## Over an input that fails for a while -/

/-- A loop over the left part of a pair of states reads the left part alone. -/
theorem readLoop_onLeft {τ : Type} (f : Feed σ α) :
    ∀ (n : ℕ) (c : γ) (s : σ) (t : τ),
      f.onLeft.readLoop held step stop n c (s, t) =
        ((f.readLoop held step stop n c s).1, (f.readLoop held step stop n c s).2.1,
          ((f.readLoop held step stop n c s).2.2, t))
  | 0, _, _, _ => rfl
  | n + 1, c, s, t => by
    simp only [readLoop, onLeft_pull]
    cases held c with
    | some p =>
      obtain ⟨a, c'⟩ := p
      simp only [afterRead]
      split <;> simp [readLoop_onLeft f n]
    | none =>
      rcases f.pull s with ⟨_ | _ | a, s'⟩
      · rfl
      · rfl
      · simp only [afterRead]
        split <;> simp [readLoop_onLeft f n]

variable {f : Feed σ α} {R : σ → Stream'.Seq α → ℕ → Prop}

/-- The loop over `f` failed where the loop over the list had nothing held and had the list `l'`
still to read, with fewer failures to come, and from there the loop over the list answers, within
any budget, what it answers from `c` and `l` within `n`. -/
def FailsAlong (f : Feed σ α) (R : σ → Stream'.Seq α → ℕ → Prop) (held : γ → Option (α × γ))
    (step : γ → α → γ ⊕ (β × γ)) (stop : γ → β × γ) (n : ℕ) (c : γ) (s : σ) (l : List α)
    (k : ℕ) : Prop :=
  ∃ (e : SeqError) (c' : γ) (s' : σ) (l' : List α) (k' : ℕ), e ≠ .exhausted ∧ k' < k ∧
    f.readLoop held step stop n c s = (.error (.fail e), c', s') ∧ R s' ↑l' k' ∧ held c' = none ∧
    l'.length ≤ l.length ∧
    ∀ m, toRead held c' l' < m →
      ofList.readLoop held step stop m c' l' = ofList.readLoop held step stop n c l

/-- The loop over `f` answered as the loop over the list, leaving `f` related to what the list
has left with as many failures to come; the answer was `step`'s, or the loop found the end of
both inputs, where `f` stays. -/
def ReadsAlong (f : Feed σ α) (R : σ → Stream'.Seq α → ℕ → Prop) (held : γ → Option (α × γ))
    (step : γ → α → γ ⊕ (β × γ)) (stop : γ → β × γ) (n : ℕ) (c : γ) (s : σ) (l : List α)
    (k : ℕ) : Prop :=
  ∃ (b : β) (c' : γ) (s' : σ) (l' : List α), ofList.readLoop held step stop n c l = (.ok b, c', l') ∧
    f.readLoop held step stop n c s = (.ok b, c', s') ∧ R s' ↑l' k ∧ l'.length ≤ l.length ∧
    ((∃ c₀ a, step c₀ a = .inr (b, c')) ∨
      (∃ c₀, stop c₀ = (b, c') ∧ l' = [] ∧ f.pull s' = (.ok none, s')))

theorem FailsAlong.lift {n : ℕ} {c c₁ : γ} {s s₁ : σ} {l l₁ : List α} {k : ℕ}
    (h : FailsAlong f R held step stop n c₁ s₁ l₁ k) (hlen : l₁.length ≤ l.length)
    (hrun : f.readLoop held step stop (n + 1) c s = f.readLoop held step stop n c₁ s₁)
    (hrun₀ : ofList.readLoop held step stop (n + 1) c l = ofList.readLoop held step stop n c₁ l₁) :
    FailsAlong f R held step stop (n + 1) c s l k := by
  obtain ⟨e, c', s', l', k', he, hk, hloop, hs', hc', hl', hsame⟩ := h
  exact ⟨e, c', s', l', k', he, hk, hrun.trans hloop, hs', hc', by omega,
    fun m hm => (hsame m hm).trans hrun₀.symm⟩

theorem ReadsAlong.lift {n : ℕ} {c c₁ : γ} {s s₁ : σ} {l l₁ : List α} {k : ℕ}
    (h : ReadsAlong f R held step stop n c₁ s₁ l₁ k) (hlen : l₁.length ≤ l.length)
    (hrun : f.readLoop held step stop (n + 1) c s = f.readLoop held step stop n c₁ s₁)
    (hrun₀ : ofList.readLoop held step stop (n + 1) c l = ofList.readLoop held step stop n c₁ l₁) :
    ReadsAlong f R held step stop (n + 1) c s l k := by
  obtain ⟨b, c', s', l', hloop₀, hloop, hs', hl', hend⟩ := h
  exact ⟨b, c', s', l', hrun₀.trans hloop₀, hrun.trans hloop, hs', by omega, hend⟩

/-- **A reading loop resumes.** Over an input that fails for a while, within a budget beyond the
elements still to read, the loop fails where the loop over the list reads on to the same answer,
or answers as the loop over the list does. -/
theorem Transient.readLoop (h : f.Transient R) (hb : HoldsOne held step) :
    ∀ {n : ℕ} {c : γ} {s : σ} {l : List α} {k : ℕ}, R s ↑l k → toRead held c l < n →
      FailsAlong f R held step stop n c s l k ∨ ReadsAlong f R held step stop n c s l k
  | 0, _, _, _, _, _, hn => absurd hn (Nat.not_lt_zero _)
  | n + 1, c, s, l, k, hs, hn => by
    cases hc : held c with
    | some p =>
      -- the element held back is taken before anything is read
      obtain ⟨a, c'⟩ := p
      have hunfold : ∀ {τ : Type} (g : Feed τ α) (t : τ), g.readLoop held step stop (n + 1) c t =
          afterRead step stop (g.readLoop held step stop n) (.ok (some a)) c' t := by
        intro τ g t
        simp only [Feed.readLoop, hc]
      have hread : toRead held c l = l.length + 1 := by simp [toRead, hc, Nat.add_comm]
      rw [hread] at hn
      cases hst : step c' a with
      | inl c'' =>
        have hc'' := hb.onward (hb.taken hc) hst
        have hn'' : toRead held c'' l < n := by rw [toRead_of_none hc'' l]; omega
        rcases Transient.readLoop h hb hs hn'' with hf | hr
        · exact .inl (hf.lift le_rfl (by rw [hunfold, afterRead_inl _ hst])
            (by rw [hunfold, afterRead_inl _ hst]))
        · exact .inr (hr.lift le_rfl (by rw [hunfold, afterRead_inl _ hst])
            (by rw [hunfold, afterRead_inl _ hst]))
      | inr p =>
        obtain ⟨b, d⟩ := p
        exact .inr ⟨b, d, s, l, by rw [hunfold, afterRead_inr _ hst],
          by rw [hunfold, afterRead_inr _ hst], hs, le_rfl, .inl ⟨c', a, hst⟩⟩
    | none =>
      have hunfold : ∀ {τ : Type} (g : Feed τ α) (t : τ), g.readLoop held step stop (n + 1) c t =
          afterRead step stop (g.readLoop held step stop n) (g.pull t).1 c (g.pull t).2 := by
        intro τ g t
        simp only [Feed.readLoop, hc]
      rcases h.pull hs with ⟨e, s', k', he, hk, hp, hs'⟩ | ⟨s', hp, hs'⟩
      · -- the read failed: the loop stops where it was, and the list loop is where it started
        obtain ⟨b, d, l', hset⟩ := readLoop_ofList_settles hb stop c l
        refine .inl ⟨e, c, s', l, k', he, hk, by rw [hunfold, hp]; rfl, hs', hc, le_rfl,
          fun m hm => ?_⟩
        rw [hset m hm, hset (n + 1) hn]
      · cases l with
        | nil =>
          -- the end of both inputs
          rw [seq_head_ofList, List.head?_nil] at hp
          exact .inr ⟨_, _, s', [], by rw [hunfold]; rfl, by rw [hunfold, hp]; rfl,
            by simpa using hs', le_rfl, .inr ⟨c, rfl, rfl, h.pull_end hs hp⟩⟩
        | cons a t =>
          rw [seq_head_ofList, List.head?_cons] at hp
          rw [seq_tail_ofList, List.tail_cons] at hs'
          have hrun : f.readLoop held step stop (n + 1) c s =
              afterRead step stop (f.readLoop held step stop n) (.ok (some a)) c s' := by
            rw [hunfold, hp]
          have hrun₀ : ofList.readLoop held step stop (n + 1) c (a :: t) =
              afterRead step stop (ofList.readLoop held step stop n) (.ok (some a)) c t := by
            rw [hunfold, ofList_pull]
            rfl
          rw [toRead_of_none hc] at hn
          cases hst : step c a with
          | inl c' =>
            have hc' := hb.onward hc hst
            have hn' : toRead held c' t < n := by rw [toRead_of_none hc' t]; simp at hn; omega
            rcases Transient.readLoop h hb hs' hn' with hf | hr
            · exact .inl (hf.lift (by simp) (by rw [hrun, afterRead_inl _ hst])
                (by rw [hrun₀, afterRead_inl _ hst]))
            · exact .inr (hr.lift (by simp) (by rw [hrun, afterRead_inl _ hst])
                (by rw [hrun₀, afterRead_inl _ hst]))
          | inr p =>
            obtain ⟨b, d⟩ := p
            exact .inr ⟨b, d, s', t, by rw [hrun₀, afterRead_inr _ hst],
              by rw [hrun, afterRead_inr _ hst], hs', by simp, .inl ⟨c, a, hst⟩⟩

end Feed

end LazySeq
