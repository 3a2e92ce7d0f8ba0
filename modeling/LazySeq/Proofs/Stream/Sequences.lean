import Mathlib
import LazySeq.Proofs.Stream.Yields

/-!
# Inputs that behave as sequences, finite or not

`Feed.Yields` speaks of an input that hands out a list and ends. The series operations read
inputs that need not end, so `Feed.Streams f xs R` speaks of a sequence `xs : Stream'.Seq α`,
finite or infinite, through a relation `R s k`: in state `s` the input has handed out the first
`k` elements of `xs`. From such a state `hasNext` answers whether `xs` has an element at `k` and
keeps the count, and `tryNext` hands that element out and counts it.

Since the relation counts what was handed out, a statement about a consumer can say how far it
read each input. `Feed.StreamsBoth` is the same for two inputs that share one state, each with
its own count: reading one leaves the other's count as it is. Two inputs with states of their
own, side by side, are such a pair (`Feed.streamsBoth_focus`), and an input that yields a list
streams it (`Feed.Yields.streams`). An operation that reads the first element when it is built
sees its input from the second element on, where the input streams any sequence that agrees
with its own (`Feed.Streams.of_agree_succ`).
-/

namespace LazySeq

variable {σ σ₁ σ₂ α : Type}

/-! ## Prefixes of a sequence -/

section Prefixes

/-- The first `n + 1` elements are the first `n` and the `n`-th, if there is one. -/
theorem seq_take_succ (xs : Stream'.Seq α) (n : ℕ) :
    xs.take (n + 1) = xs.take n ++ (xs.get? n).toList := by
  induction n generalizing xs with
  | zero =>
    cases xs using Stream'.Seq.recOn with
    | nil => simp
    | cons x rest => simp
  | succ n ih =>
    cases xs using Stream'.Seq.recOn with
    | nil => simp
    | cons x rest => simp [ih rest]

/-- Past a prefix comes the element at the prefix's end: the prefix is shorter than asked only
when the sequence has ended. -/
theorem get?_length_take (xs : Stream'.Seq α) (n : ℕ) :
    xs.get? (xs.take n).length = xs.get? n := by
  induction n generalizing xs with
  | zero => simp
  | succ n ih =>
    cases xs using Stream'.Seq.recOn with
    | nil => simp
    | cons x rest => simp [ih rest]

/-- Below `n`, the elements are those of the first `n`. -/
theorem isSome_get?_iff_lt_length_take {xs : Stream'.Seq α} {i n : ℕ} (hi : i < n) :
    (xs.get? i).isSome ↔ i < (xs.take n).length := by
  have htake : (xs.take n)[i]? = xs.get? i := by rw [Stream'.Seq.getElem?_take, if_pos hi]
  rw [← htake]
  simp only [isSome_getElem?]

/-- Once the sequence has ended at `n`, its elements are those of the first `n`. -/
theorem isSome_get?_iff_of_get?_eq_none {xs : Stream'.Seq α} {n : ℕ} (hn : xs.get? n = none)
    (i : ℕ) : (xs.get? i).isSome ↔ i < (xs.take n).length := by
  rcases Nat.lt_or_ge i n with hi | hi
  · exact isSome_get?_iff_lt_length_take hi
  · have hlen : (xs.take n).length ≤ i := Stream'.Seq.length_take_le.trans hi
    simp [Stream'.Seq.le_stable xs hi hn, Nat.not_lt.2 hlen]

/-- A sequence that has an element at `n` has one at every earlier index. -/
theorem isSome_get?_of_le {xs : Stream'.Seq α} {m n : ℕ} (hmn : m ≤ n)
    (hn : (xs.get? n).isSome) : (xs.get? m).isSome := by
  obtain ⟨x, hx⟩ := Option.isSome_iff_exists.1 hn
  obtain ⟨y, hy⟩ := Stream'.Seq.ge_stable xs hmn hx
  simp [hy]

/-- A sequence with a first element has it as its first prefix of one. -/
theorem length_take_one {xs : Stream'.Seq α} (h0 : (xs.get? 0).isSome) : (xs.take 1).length = 1 :=
  Nat.le_antisymm Stream'.Seq.length_take_le ((isSome_get?_iff_lt_length_take one_pos).1 h0)

/-- Two sequences with elements at the same indices have prefixes of the same length. -/
theorem length_take_congr {xs ys : Stream'.Seq α}
    (h : ∀ i, (xs.get? i).isSome = (ys.get? i).isSome) (m : ℕ) :
    (xs.take m).length = (ys.take m).length := by
  induction m with
  | zero => simp
  | succ m ih =>
    have hm := h m
    rw [seq_take_succ, seq_take_succ, List.length_append, List.length_append, ih]
    cases hx : xs.get? m <;> cases hy : ys.get? m <;> simp_all

end Prefixes

namespace Feed

/-! ## One input -/

/-- From a state related by `R` to `k`, `f` behaves as the sequence `xs` of which it has handed
out the first `k` elements: `hasNext` answers whether there is a `k`-th, and `tryNext` hands it
out. -/
structure Streams (f : Feed σ α) (xs : Stream'.Seq α) (R : σ → ℕ → Prop) : Prop where
  hasNext : ∀ {s k}, R s k → ∃ s', f.hasNext s = (.ok (xs.get? k).isSome, s') ∧ R s' k
  tryNext : ∀ {s k a}, R s k → xs.get? k = some a →
    ∃ s', f.tryNext s = (.ok a, s') ∧ R s' (k + 1)

namespace Streams

variable {f : Feed σ α} {xs : Stream'.Seq α} {R : σ → ℕ → Prop} {s : σ} {k : ℕ}

/-- A read where the sequence goes on hands out its next element. -/
theorem pull_some (h : f.Streams xs R) (hs : R s k) {a : α} (ha : xs.get? k = some a) :
    ∃ s', f.pull s = (.ok (some a), s') ∧ R s' (k + 1) := by
  obtain ⟨s₁, hh, hs₁⟩ := h.hasNext hs
  obtain ⟨s₂, ht, hs₂⟩ := h.tryNext hs₁ ha
  exact ⟨s₂, by simp [Feed.pull, hh, ha, ht], hs₂⟩

/-- A read where the sequence has ended finds nothing and counts nothing. -/
theorem pull_none (h : f.Streams xs R) (hs : R s k) (hn : xs.get? k = none) :
    ∃ s', f.pull s = (.ok none, s') ∧ R s' k := by
  obtain ⟨s₁, hh, hs₁⟩ := h.hasNext hs
  exact ⟨s₁, by simp [Feed.pull, hh, hn], hs₁⟩

/-- A transformed input streams the transformed sequence. -/
theorem map (h : f.Streams xs R) {β : Type} (g : α → β) : (f.map g).Streams (xs.map g) R where
  hasNext := by
    intro s k hs
    obtain ⟨s', hh, hs'⟩ := h.hasNext hs
    exact ⟨s', by simpa [Feed.map] using hh, hs'⟩
  tryNext := by
    intro s k b hs hb
    rw [Stream'.Seq.map_get?, Option.map_eq_some_iff] at hb
    obtain ⟨a, ha, rfl⟩ := hb
    obtain ⟨s', ht, hs'⟩ := h.tryNext hs ha
    exact ⟨s', by simp only [Feed.map, ht]; rfl, hs'⟩

/-- A fact that holds throughout can be carried along the count. -/
theorem and_left (h : f.Streams xs R) (P : Prop) : f.Streams xs fun s k => P ∧ R s k where
  hasNext := by
    rintro s k ⟨hP, hs⟩
    obtain ⟨s', hh, hs'⟩ := h.hasNext hs
    exact ⟨s', hh, hP, hs'⟩
  tryNext := by
    rintro s k a ⟨hP, hs⟩ ha
    obtain ⟨s', ht, hs'⟩ := h.tryNext hs ha
    exact ⟨s', ht, hP, hs'⟩

/-- Once it has handed out its first element, an input streams any sequence that agrees with
its own from the second element on. -/
theorem of_agree_succ (h : f.Streams xs R) {ys : Stream'.Seq α}
    (hys : ∀ k, ys.get? (k + 1) = xs.get? (k + 1)) : f.Streams ys fun s k => 1 ≤ k ∧ R s k where
  hasNext := by
    rintro s k ⟨hk, hs⟩
    obtain ⟨s', hh, hs'⟩ := h.hasNext hs
    obtain ⟨j, rfl⟩ : ∃ j, k = j + 1 := ⟨k - 1, by omega⟩
    exact ⟨s', by rw [hys]; exact hh, hk, hs'⟩
  tryNext := by
    rintro s k a ⟨hk, hs⟩ ha
    obtain ⟨j, rfl⟩ : ∃ j, k = j + 1 := ⟨k - 1, by omega⟩
    obtain ⟨s', ht, hs'⟩ := h.tryNext hs (by rwa [← hys])
    exact ⟨s', ht, by omega, hs'⟩

end Streams

/-- An input that yields a list streams it, the count being how much of the list is gone. -/
theorem Yields.streams {f : Feed σ α} {R : σ → List α → Prop} (h : f.Yields R) (xs : List α) :
    f.Streams (.ofList xs) fun s k => R s (xs.drop k) where
  hasNext := by
    intro s k hs
    obtain ⟨s', hh, hs'⟩ := h.hasNext hs
    refine ⟨s', ?_, hs'⟩
    rw [hh, Stream'.Seq.ofList_get?]
    rcases Nat.lt_or_ge k xs.length with hk | hk
    · simp [hk]
    · simp [List.drop_eq_nil_of_le hk, List.getElem?_eq_none hk]
  tryNext := by
    intro s k a hs ha
    rw [Stream'.Seq.ofList_get?] at ha
    obtain ⟨hk, rfl⟩ := List.getElem?_eq_some_iff.1 ha
    rw [List.drop_eq_getElem_cons hk] at hs
    exact h.tryNext hs

/-! ## Two inputs on one state -/

/-- `left` streams `a` and `right` streams `b` from one shared state, `R s j k` counting `j`
elements handed out by `left` and `k` by `right`: each read moves its own count only. -/
structure StreamsBoth (left right : Feed σ α) (a b : Stream'.Seq α) (R : σ → ℕ → ℕ → Prop) :
    Prop where
  left : ∀ k, left.Streams a fun s j => R s j k
  right : ∀ j, right.Streams b fun s k => R s j k

/-- Once the second input has handed out its first element, the pair streams any sequence in
its place that agrees with its own from the second element on. -/
theorem StreamsBoth.of_agree_succ {left right : Feed σ α} {a b : Stream'.Seq α}
    {R : σ → ℕ → ℕ → Prop} (h : StreamsBoth left right a b R) {ys : Stream'.Seq α}
    (hys : ∀ k, ys.get? (k + 1) = b.get? (k + 1)) :
    StreamsBoth left right a ys fun s j k => 1 ≤ k ∧ R s j k where
  left k := (h.left k).and_left (1 ≤ k)
  right j := (h.right j).of_agree_succ hys

/-- Two inputs, each on a state of its own, side by side on the pair of their states. -/
theorem streamsBoth_focus {f : Feed σ₁ α} {g : Feed σ₂ α} {a b : Stream'.Seq α}
    {R₁ : σ₁ → ℕ → Prop} {R₂ : σ₂ → ℕ → Prop} (hf : f.Streams a R₁) (hg : g.Streams b R₂) :
    StreamsBoth (f.focus Prod.fst fun p s => (s, p.2)) (g.focus Prod.snd fun p s => (p.1, s)) a b
      fun p j k => R₁ p.1 j ∧ R₂ p.2 k where
  left k := {
    hasNext := by
      rintro ⟨s₁, s₂⟩ j ⟨hs₁, hs₂⟩
      obtain ⟨s', hh, hs'⟩ := hf.hasNext hs₁
      exact ⟨(s', s₂), by simp [Feed.focus, hh], hs', hs₂⟩
    tryNext := by
      rintro ⟨s₁, s₂⟩ j x ⟨hs₁, hs₂⟩ hx
      obtain ⟨s', ht, hs'⟩ := hf.tryNext hs₁ hx
      exact ⟨(s', s₂), by simp [Feed.focus, ht], hs', hs₂⟩ }
  right j := {
    hasNext := by
      rintro ⟨s₁, s₂⟩ k ⟨hs₁, hs₂⟩
      obtain ⟨s', hh, hs'⟩ := hg.hasNext hs₂
      exact ⟨(s₁, s'), by simp [Feed.focus, hh], hs₁, hs'⟩
    tryNext := by
      rintro ⟨s₁, s₂⟩ k x ⟨hs₁, hs₂⟩ hx
      obtain ⟨s', ht, hs'⟩ := hg.tryNext hs₂ hx
      exact ⟨(s₁, s'), by simp [Feed.focus, ht], hs₁, hs'⟩ }

end Feed

end LazySeq
