import Mathlib
import LazySeq.Proofs.Stream.Built
import LazySeq.Proofs.Series.MergeLists

/-!
# The walk over the steps of several series

`Series.steps` gives, at every boundary of some series, the value each of them has in force
there. The walk hands these steps out one call at a time: it merges the key lists of the series
weakly, by least key (`minHead`), keeps the first key of each run of weakly equal ones, and reads
the values in force at each key it keeps. Each of the three is an adapter of `Feed.Built` over
list inputs, so the walk resumes where it stopped and a look ahead moves nothing in it.

**Main statements.**

* `Series.walk_built`: the walk is a built sequence.
* `Series.walk_start`: from its start, with a budget beyond the keys of the series, the walk hands
  out `Series.steps`, and none of its calls fails.
-/

namespace LazySeq

open Feed

variable {α β κ ν : Type}

/-- The list input hands out its list and never fails. -/
theorem Feed.transient_ofList : (ofList : Feed (List α) α).Transient fun l xs _ => xs = ↑l where
  hasNext := by
    rintro l _ k rfl
    refine ⟨!l.isEmpty, l, rfl, rfl, rfl, .inl ?_⟩
    cases l <;> simp
  tryNext := by
    rintro l _ k rfl
    cases l with
    | nil => exact .inr ⟨[], by simp [ofList], by simp⟩
    | cons a rest => exact .inr ⟨rest, by simp [ofList], by simp⟩

theorem seq_map_ofList (g : α → β) (l : List α) :
    (↑(l.map g) : Stream'.Seq β) = (↑l : Stream'.Seq α).map g := by
  induction l with
  | nil => simp
  | cons a l ih => simp [Stream'.Seq.ofList_cons, ih]

/-- A weak merge by least head hands out what merging the lists by that order gives, with a
budget beyond their elements. -/
theorem merged_selectMinBy (cmp : α → α → Ordering) :
    ∀ (fuel : ℕ) (L : List (List α)), L.flatten.length < fuel →
      merged (selectMinBy cmp) true L = mergeLists cmp fuel L
  | 0, _, h => absurd h (Nat.not_lt_zero _)
  | fuel + 1, L, h => by
    cases hans : mergeAnswer true L with
    | false =>
      -- every list is empty: no head is selected either
      rw [merged_of_not hans]
      cases hsel : selectMinBy cmp (L.map List.head?) with
      | none => simp [mergeLists, hsel]
      | some i =>
        obtain ⟨a, ha⟩ := selectMinBy_getElem? cmp hsel
        have hany : (L.map List.head?).toArray.any Option.isSome = true := by
          rw [List.any_toArray]
          exact List.any_eq_true.2 ⟨some a, List.mem_of_getElem? ha, rfl⟩
        rw [any_isSome_heads] at hany
        simp [mergeAnswer, hany] at hans
    | true =>
      -- both take the head of the list the selector names, and go on with the rest
      obtain ⟨i, a, rest, hsel, hi, hm⟩ := merged_of_answer (selectMinBy_picks cmp) hans
      obtain ⟨a', rest', hi', hstep⟩ := mergeLists_succ_of_select cmp fuel hsel
      obtain ⟨rfl, rfl⟩ : a = a' ∧ rest = rest' := by simpa [hi] using hi'
      have hlen := (flatten_perm_set hi).length_eq
      rw [List.length_cons] at hlen
      rw [hm, hstep, merged_selectMinBy cmp fuel _ (by omega)]

namespace Series

variable [PartialCompare κ] [WeakEq κ]

/-- The walk over the steps of some series, one step a call: the key lists of the series merged
weakly by least key, the first key of each run of weakly equal ones kept, and at each key the
values the series have in force there. -/
def walk (t : Tolerance) (series : List (Series κ ν)) (fuel : ℕ) :
    Feed (KeepFirst (Option κ) × MergeState (Option κ) Unit × (ℕ → List (Option κ)))
      (Option κ × List (Option ν)) :=
  (KeepFirst.feed (fun a b => weakEq t a b) fuel
    (Merge.feed (Merge.stateless minHead) true
      (sideBySide (fun _ => (ofList : Feed (List (Option κ)) (Option κ))) series.length))).map
    fun k => (k, series.map (·.applyAt k))

/-- Where the walk starts: nothing read, and the keys of each series still to come. -/
def walkStart (series : List (Series κ ν)) :
    KeepFirst (Option κ) × MergeState (Option κ) Unit × (ℕ → List (Option κ)) :=
  (KeepFirst.initial, MergeState.initial (), fun i => (series.map keys).getD i [])

/-- What the walk still hands out, and how many of its calls may fail on the way: the steps at
the first keys of the runs of the merge of what its key inputs still hold. -/
def Walked (t : Tolerance) (series : List (Series κ ν)) (fuel : ℕ) :
    KeepFirst (Option κ) × MergeState (Option κ) Unit × (ℕ → List (Option κ)) →
      Stream'.Seq (Option κ × List (Option ν)) → ℕ → Prop :=
  Mapped (fun k => (k, series.map (·.applyAt k)))
    (KeepFirst.Kept (fun a b => weakEq t a b) fuel
      (Merge.Merged minHead true series.length fun _ l xs _ => xs = ↑l))

/-- **The walk is built by the adapters**: a map of a keep-first of a weak merge by least key of
list inputs. -/
theorem walk_built (t : Tolerance) (series : List (Series κ ν)) (fuel : ℕ) :
    Built (walk t series fuel) (Walked t series fuel) := by
  unfold walk Walked
  exact .map _ (.keepFirst _ _ (.merge (selectMinBy_picks _) true fun _ _ => .input transient_ofList))

/-- **From its start the walk hands out the steps** of the series, with a budget beyond their
keys, and none of its calls fails. -/
theorem walk_start (t : Tolerance) (series : List (Series κ ν)) {fuel : ℕ}
    (hfuel : (series.map keys).flatten.length < fuel) :
    Walked t series fuel (walkStart series) ↑(steps t series) 0 := by
  -- the merge of the key lists is the one the boundaries keep the runs of
  have hmerge : merged minHead true (series.map keys) =
      mergeLists (fun a b => (partialCompare a b).getD .eq)
        (((series.map keys).map List.length).foldr (· + ·) 0 + 1) (series.map keys) := by
    refine merged_selectMinBy _ _ _ ?_
    rw [List.length_flatten]
    exact Nat.lt_succ_self _
  have hlen : (merged minHead true (series.map keys)).length < fuel := by
    rw [hmerge, (mergeLists_perm _ _ _ (by rw [List.length_flatten]; exact Nat.lt_succ_self _)).length_eq]
    exact hfuel
  refine ⟨↑(boundaries t series), ?_, by rw [steps, seq_map_ofList]⟩
  refine ⟨merged minHead true (series.map keys), ?_, hlen, ?_⟩
  · refine ⟨series.map keys, fun _ => 0, rfl, ⟨by simp, Nat.zero_le _, fun i _ => ?_⟩,
      by simp [MergeState.initial], by simp [MergeState.initial], rfl⟩
    simp [Sides.rest, MergeState.initial]
  · simp [boundaries, hmerge]

end Series

end LazySeq
