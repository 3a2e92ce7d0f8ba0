import Mathlib
import LazySeq.Pipeline.Callbacks

/-!
# Looking ahead

A filter answers `hasNext` by reading ahead to the next element that passes and keeping it, or
keeping the failure it met. When that look finds an element, it moves nothing: the next
`tryNext` hands out exactly what it would have handed out without the look
(`Filter.tryNext_after_hasNext_true`). When the look finds the end, nothing is kept, and the next
`tryNext` reads the input again. That second read finds the end again only if the input's end is
final (`Filter.tryNext_after_hasNext_false`).

A merge's end need not be final: a selector that names an absent head ends the merge for one call
only. The round-robin selector over `[1, 2]` and `[]` names the empty input every other turn, so a
filter over that merge that looks ahead before its second call sees the end, answers `false`, and
then hands out `2`, where without the look the second call is exhausted
(`filter_round_robin_reads_past_end`).
-/

namespace LazySeq

variable {σ α : Type}

namespace Filter

variable {p : α → Bool} {input : Feed σ α} {fuel : Nat} {ahead ahead' : Lookahead α} {s s' : σ}

/-- With something kept, `hasNext` answers at once and changes nothing. -/
@[simp] theorem hasNext_some (b : Except SeqError α) :
    hasNext p input fuel (some b) s = (.ok true, some b, s) := by
  cases fuel <;> rfl

/-- `hasNext` answers true only with something kept. -/
theorem isSome_of_hasNext_true (h : hasNext p input fuel ahead s = (.ok true, ahead', s')) :
    ahead'.isSome := by
  induction fuel generalizing ahead s with
  | zero =>
    cases ahead with
    | none => simp [hasNext] at h
    | some b =>
      simp only [hasNext_some, Prod.mk.injEq] at h
      rw [← h.2.1]; rfl
  | succ k ih =>
    cases ahead with
    | some b =>
      simp only [hasNext_some, Prod.mk.injEq] at h
      rw [← h.2.1]; rfl
    | none =>
      simp only [hasNext] at h
      rcases hp : input.pull s with ⟨(e | r) | (_ | a), s₁⟩ <;> simp only [hp] at h
      · -- a failure is kept
        simp only [Prod.mk.injEq] at h
        rw [← h.2.1]; rfl
      · simp at h
      · simp at h
      · split at h
        · simp only [Prod.mk.injEq] at h
          rw [← h.2.1]; rfl
        · exact ih h

/-- `hasNext` answers false only when nothing was kept, nothing is kept after it, it had budget
left to read, and its last read of the input found the end. -/
theorem eq_none_of_hasNext_false (h : hasNext p input fuel ahead s = (.ok false, ahead', s')) :
    ahead = none ∧ ahead' = none ∧ 0 < fuel ∧ ∃ s₀, input.pull s₀ = (.ok none, s') := by
  induction fuel generalizing ahead s with
  | zero => cases ahead <;> simp [hasNext] at h
  | succ k ih =>
    cases ahead with
    | some b => simp at h
    | none =>
      simp only [hasNext] at h
      rcases hp : input.pull s with ⟨(e | r) | (_ | a), s₁⟩ <;> simp only [hp] at h
      · simp at h
      · simp at h
      · simp only [Prod.mk.injEq] at h
        obtain ⟨-, rfl, rfl⟩ := h
        exact ⟨rfl, rfl, Nat.succ_pos k, s, hp⟩
      · split at h
        · simp at h
        · obtain ⟨-, rfl, -, hend⟩ := ih h
          exact ⟨rfl, rfl, Nat.succ_pos k, hend⟩

/-- A `hasNext` that answered true moves nothing: the next `tryNext` answers what a `tryNext`
in its place would have answered. -/
theorem tryNext_after_hasNext_true (h : hasNext p input fuel ahead s = (.ok true, ahead', s')) :
    tryNext p input fuel ahead' s' = tryNext p input fuel ahead s := by
  obtain ⟨b, rfl⟩ := Option.isSome_iff_exists.1 (isSome_of_hasNext_true h)
  simp only [tryNext, hasNext_some, h]

/-- After a `hasNext` that answered false, the next `tryNext` is exhausted when the input's end
is final: reading it again finds the end again. -/
theorem tryNext_after_hasNext_false (h : hasNext p input fuel ahead s = (.ok false, ahead', s'))
    {s'' : σ} (hend : input.pull s' = (.ok none, s'')) :
    (tryNext p input fuel ahead' s').1 = Outcome.exhausted := by
  obtain ⟨-, rfl, hfuel, -⟩ := eq_none_of_hasNext_false h
  obtain ⟨k, rfl⟩ : ∃ k, fuel = k + 1 := ⟨fuel - 1, by omega⟩
  simp [tryNext, hasNext, hend]

end Filter

/-- An input whose end is final: once a read finds the end, the next read finds it again. -/
def Feed.EndFinal (f : Feed σ α) : Prop :=
  ∀ s s', f.pull s = (.ok none, s') → ∃ s'', f.pull s' = (.ok none, s'')

theorem Feed.endFinal_ofList : (Feed.ofList (α := α)).EndFinal := by
  intro s s' h
  cases s with
  | nil =>
    simp only [Feed.pull, Feed.ofList, List.isEmpty_nil, Bool.not_true, Prod.mk.injEq] at h
    exact ⟨[], by rw [← h.2]; rfl⟩
  | cons a rest => simp [Feed.pull, Feed.ofList] at h

/-- Over an input whose end is final, a filter's look ahead is invisible: after a `hasNext` that
answered true the next `tryNext` answers what it would have answered without the look, and after
one that answered false the next `tryNext` is exhausted. -/
theorem filter_lookahead_invisible (p : α → Bool) (input : Feed σ α) (hend : input.EndFinal)
    (fuel : Nat) (ahead : Lookahead α) (s : σ) :
    (∀ ahead' s', Filter.hasNext p input fuel ahead s = (.ok true, ahead', s') →
      Filter.tryNext p input fuel ahead' s' = Filter.tryNext p input fuel ahead s) ∧
    (∀ ahead' s', Filter.hasNext p input fuel ahead s = (.ok false, ahead', s') →
      (Filter.tryNext p input fuel ahead' s').1 = Outcome.exhausted) := by
  refine ⟨fun _ _ h => Filter.tryNext_after_hasNext_true h, fun ahead' s' h => ?_⟩
  obtain ⟨-, -, -, s₀, hs₀⟩ := Filter.eq_none_of_hasNext_false h
  obtain ⟨s'', hs''⟩ := hend s₀ s' hs₀
  exact Filter.tryNext_after_hasNext_false h hs''

theorem filter_lookahead_invisible_ofList :
    (Feed.ofList (α := Nat)).EndFinal ∧
      ((∀ ahead' s', Filter.hasNext (· % 2 == 0) Feed.ofList 4 none [1, 3, 4] = (.ok true, ahead', s') →
        Filter.tryNext (· % 2 == 0) Feed.ofList 4 ahead' s' =
          Filter.tryNext (· % 2 == 0) Feed.ofList 4 none [1, 3, 4]) ∧
      (∀ ahead' s', Filter.hasNext (· % 2 == 0) Feed.ofList 4 none [1, 3, 4] = (.ok false, ahead', s') →
        (Filter.tryNext (· % 2 == 0) Feed.ofList 4 ahead' s').1 = Outcome.exhausted)) :=
  ⟨Feed.endFinal_ofList, filter_lookahead_invisible _ Feed.ofList Feed.endFinal_ofList 4 none [1, 3, 4]⟩

/-- The merge of `[1, 2]` and `[]` under the round-robin selector, read through a filter that
keeps everything: the first call hands out `1`; a second call is exhausted, the selector naming
the empty input; but a look ahead before the second call answers `false` and the call after it
hands out `2`. -/
theorem filter_round_robin_reads_past_end :
    let f := Filter.feed Pred.all.holds 8
      (Merge.feed Selector.pick true
        [Feed.ofList.focus Prod.fst (fun p l => (l, p.2)),
          Feed.ofList.focus Prod.snd (fun p l => (p.1, l))])
    let s₁ := (f.tryNext (none, MergeState.initial (.roundRobin 0), ([.int 1, .int 2], []))).2
    (f.tryNext (none, MergeState.initial (.roundRobin 0), ([.int 1, .int 2], []))).1 =
        .ok (.int 1) ∧
      (f.tryNext s₁).1 = Outcome.exhausted ∧
      (f.hasNext s₁).1 = .ok false ∧ (f.tryNext (f.hasNext s₁).2).1 = .ok (.int 2) :=
  ⟨by cbv, by cbv, by cbv, by cbv⟩

end LazySeq
