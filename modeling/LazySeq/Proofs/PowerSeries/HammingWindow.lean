import Mathlib
import LazySeq.Proofs.PowerSeries.HammingOrder

/-!
# The generator reads inside its window

The generator keeps the values it made from the lowest cursor on, so the value at cursor `c` is
`history[c - offset]`. `Hamming.InRange` says that read stays inside the kept values: there is one
cursor per modulus, the history is not empty, the offset is the least cursor, and every cursor is
below the offset plus the length of the history.

A step pushes one value at the back and moves each cursor on by at most one, so a cursor stays at
most the old offset plus the old length, the index of the value just pushed. It then forgets the
values below the new least cursor: the least cursor is no further than that index, so at least
the pushed value stays, and no cursor is left behind. This holds whatever values the step
computes, saturated or not.

**Main statement.** `hamming_window_in_range`: after any number of reads of a generator that
`Hamming.make` accepted, the history is not empty, the offset is the least cursor, every cursor
reads inside the history, and the next read hands out a value.
-/

namespace LazySeq

/-! ## Least elements -/

/-- A fold with `min` from the head of a list that is not empty is its least element. -/
theorem min?_eq_foldl_min_headD {cs : List ℕ} (hne : cs ≠ []) (o : ℕ) :
    cs.min? = some (cs.foldl min (cs.headD o)) := by
  obtain ⟨c, rest, rfl⟩ := List.exists_cons_of_ne_nil hne
  rw [List.min?_cons']
  simp

/-- Moving each cursor on by one where its candidate is the least: every new cursor is an old one
or one past it. -/
theorem exists_le_of_mem_advance {cs xs : List ℕ} {v c' : ℕ}
    (h : c' ∈ (cs.zip xs).map fun p => if p.2 = v then p.1 + 1 else p.1) :
    ∃ c ∈ cs, c ≤ c' ∧ c' ≤ c + 1 := by
  obtain ⟨⟨c, x⟩, hp, rfl⟩ := List.mem_map.1 h
  refine ⟨c, (List.of_mem_zip hp).1, ?_⟩
  dsimp only
  split <;> omega

namespace Hamming

/-- The reads of a step stay inside the kept values: one cursor per modulus, a history that is not
empty, the offset at the least cursor, and every cursor before the end of the history. -/
structure InRange (h : Hamming) : Prop where
  length : h.cursors.length = h.moduli.length
  history_ne_nil : h.history ≠ []
  offset_eq_min : h.cursors.min? = some h.offset
  lt_end : ∀ c ∈ h.cursors, c < h.offset + h.history.length

namespace InRange

variable {h : Hamming}

theorem offset_le (hr : h.InRange) {c : ℕ} (hc : c ∈ h.cursors) : h.offset ≤ c :=
  (List.min?_eq_some_iff.1 hr.offset_eq_min).2 c hc

theorem cursors_ne_nil (hr : h.InRange) : h.cursors ≠ [] := by
  intro hnil
  have := hr.offset_eq_min
  simp [hnil] at this

/-- The read at a cursor neither falls below the history nor past its end. -/
theorem sub_offset_lt (hr : h.InRange) {c : ℕ} (hc : c ∈ h.cursors) :
    c - h.offset < h.history.length := by
  have := hr.offset_le hc
  have := hr.lt_end c hc
  omega

/-- **One step.** A generator whose reads stay in its window hands out a value, and its reads stay
in the window after it. -/
theorem next (hr : h.InRange) : ∃ v h', h.next = some (v, h') ∧ h'.InRange := by
  obtain ⟨v, hv⟩ := Option.isSome_iff_exists.1 (List.getLast?_isSome.2 hr.history_ne_nil)
  simp only [Hamming.next, hv]
  refine ⟨v, _, rfl, ?_⟩
  set candidates := (h.moduli.zip h.cursors).map fun p =>
    min wordLimit (p.1 * h.history.getD (p.2 - h.offset) 0)
  set cs := (h.cursors.zip candidates).map fun p =>
    if p.2 = candidates.foldl min wordLimit then p.1 + 1 else p.1 with hcs
  -- one candidate per cursor, so one new cursor per old one
  have hlen : cs.length = h.cursors.length := by
    simp [hcs, candidates, hr.length]
  -- a cursor moves on by at most one: up to the index of the value just pushed
  have hbounds : ∀ c ∈ cs, h.offset ≤ c ∧ c ≤ h.offset + h.history.length := by
    intro c' hc'
    obtain ⟨c, hc, hle, hle'⟩ := exists_le_of_mem_advance hc'
    have := hr.offset_le hc
    have := hr.lt_end c hc
    omega
  obtain ⟨hoff, hk, hleast⟩ := foldl_min_headD_bounds (Nat.le_add_right _ _) hbounds
  have hne : cs ≠ [] := by
    rw [← List.length_pos_iff, hlen, List.length_pos_iff]
    exact hr.cursors_ne_nil
  refine ⟨?_, ?_, ?_, ?_⟩ <;> dsimp only
  · rw [hlen, hr.length]
  · rw [Ne, List.drop_eq_nil_iff, List.length_append, List.length_singleton]
    omega
  · rw [Nat.add_sub_cancel' hoff]
    exact min?_eq_foldl_min_headD hne h.offset
  · intro c hc
    rw [List.length_drop, List.length_append, List.length_singleton]
    have := hbounds c hc
    omega

/-- A read of the generator as an input hands out a value, and its reads stay in the window
after it. -/
theorem tryNext (hr : h.InRange) :
    ∃ v h', Hamming.feed.tryNext h = (.ok v, h') ∧ h'.InRange := by
  obtain ⟨v, h', hn, hr'⟩ := hr.next
  exact ⟨v, h', by simp [Hamming.feed, hn], hr'⟩

/-- **Every run.** After any number of reads the reads stay in the window. -/
theorem iterate (hr : h.InRange) (n : ℕ) :
    ((fun s => (Hamming.feed.tryNext s).2)^[n] h).InRange := by
  induction n with
  | zero => exact hr
  | succ n ih =>
    obtain ⟨v, h', htry, hr'⟩ := ih.tryNext
    rw [Function.iterate_succ_apply', htry]
    exact hr'

end InRange

/-- A generator `make` accepts starts with every cursor at the one value it holds. -/
theorem make_inRange {ms : List ℕ} {h : Hamming} (hmk : Hamming.make ms = .ok h) : h.InRange := by
  unfold Hamming.make at hmk
  split at hmk
  · cases hmk
  · next hne =>
    split at hmk
    · cases hmk
    · cases hmk
      -- the moduli sorted without repeats are the moduli, so there is at least one
      have hsorted : (ms.mergeSort (· ≤ ·)).eraseDups ≠ [] := by
        obtain ⟨m, hm⟩ := List.exists_mem_of_ne_nil ms (by simpa using hne)
        exact List.ne_nil_of_mem (List.mem_eraseDups.2 (List.mem_mergeSort.2 hm))
      refine ⟨by simp, List.cons_ne_nil 1 [], ?_, ?_⟩
      · rw [List.min?_eq_some_iff]
        obtain ⟨m, hm⟩ := List.exists_mem_of_ne_nil _ hsorted
        exact ⟨List.mem_map.2 ⟨m, hm, rfl⟩, fun _ _ => Nat.zero_le _⟩
      · simp

end Hamming

/-- **The generator reads inside its window.** After any number `n` of reads of a generator that
`make` accepted, its history is not empty, its offset is the least of its cursors, and every
cursor `c` reads inside the history: `offset ≤ c ≤ offset + length - 1`, so `c - offset` neither
wraps below zero nor reaches past the end. The next read hands out a value. -/
theorem hamming_window_in_range {ms : List ℕ} {h : Hamming} (hmk : Hamming.make ms = .ok h)
    (n : ℕ) :
    let s := (fun s => (Hamming.feed.tryNext s).2)^[n] h
    s.history ≠ [] ∧ s.cursors.min? = some s.offset ∧
      (∀ c ∈ s.cursors, s.offset ≤ c ∧ c ≤ s.offset + s.history.length - 1 ∧
        c - s.offset < s.history.length) ∧
      ∃ v, (Hamming.feed.tryNext s).1 = .ok v := by
  intro s
  have hr : s.InRange := (Hamming.make_inRange hmk).iterate n
  obtain ⟨v, s', htry, -⟩ := hr.tryNext
  refine ⟨hr.history_ne_nil, hr.offset_eq_min, fun c hc => ?_, v, by rw [htry]⟩
  have := hr.lt_end c hc
  exact ⟨hr.offset_le hc, by omega, hr.sub_offset_lt hc⟩

/-- The moduli `5, 3, 2, 3`, out of order and one repeated: the generator reads in its window
after any number of reads. -/
theorem hamming_window_in_range_regular :
    Hamming.make [5, 3, 2, 3] = .ok ⟨[2, 3, 5], [0, 0, 0], [1], 0⟩ ∧ ∀ n : ℕ,
      let s := (fun s => (Hamming.feed.tryNext s).2)^[n] (⟨[2, 3, 5], [0, 0, 0], [1], 0⟩ : Hamming)
      s.history ≠ [] ∧ s.cursors.min? = some s.offset ∧
        (∀ c ∈ s.cursors, s.offset ≤ c ∧ c ≤ s.offset + s.history.length - 1 ∧
          c - s.offset < s.history.length) ∧
        ∃ v, (Hamming.feed.tryNext s).1 = .ok v := by
  have hmk : Hamming.make [5, 3, 2, 3] = .ok ⟨[2, 3, 5], [0, 0, 0], [1], 0⟩ := by cbv
  exact ⟨hmk, hamming_window_in_range hmk⟩

end LazySeq
