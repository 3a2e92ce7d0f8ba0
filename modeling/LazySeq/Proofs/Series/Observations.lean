import Mathlib
import LazySeq.Proofs.Series.StepFunction
import LazySeq.Proofs.Stream.Runs
import LazySeq.Proofs.Stream.StableMerge
import LazySeq.Series.Samples

/-!
# Observations of merged samples

A sample merge reads the samples of several inputs, merged by least key and each tagged with
its input, and reports one observation per run of keys weakly equal to the run's first: the
run's first key and, per input, the latest value that input has reported up to the run's end
(nothing before its first sample).

`observations` says so of the list of merged samples, by `runs` and `latestValues`. Over a
merged input that yields a list, the sample merge yields the observations of that list
(`SampleMerge.yields_observations`). The invariant between two calls (`SampleMerge.Rests`): no
observation is half assembled, the latest values are those of the samples read so far, and the
held sample followed by the merged input is what is still to come. Assembling an observation
reads one run (`SampleMerge.gather_eq`).

Main statement: `merge_samples_observations`. Over inputs of samples sorted by keys that compare
as a linear order, the merge by least key of the inputs, each sample tagged by its input, is
their stable merge, and the sample merge over it hands out its observations; combining each
row's values by a function hands out the same keys with the combined values.
-/

namespace LazySeq

variable {σ κ ν γ β : Type}

/-! ## Latest values -/

section Latest

/-- The latest value of each of `width` inputs after the tagged samples `xs`: that of the input's
last sample, and nothing before its first. -/
def latestValues (width : ℕ) (xs : List (ℕ × κ × ν)) : List (Option ν) :=
  (List.range width).map fun i => ((xs.filter (·.1 == i)).getLast?).map (·.2.2)

@[simp] theorem length_latestValues (width : ℕ) (xs : List (ℕ × κ × ν)) :
    (latestValues width xs).length = width := by
  simp [latestValues]

theorem latestValues_nil (width : ℕ) :
    latestValues width ([] : List (ℕ × κ × ν)) = List.replicate width none := by
  simp [latestValues]

/-- A sample replaces the latest value of its input. -/
theorem latestValues_append_singleton (width : ℕ) (xs : List (ℕ × κ × ν)) (x : ℕ × κ × ν) :
    latestValues width (xs ++ [x]) = (latestValues width xs).set x.1 (some x.2.2) := by
  apply List.ext_getElem (by simp)
  intro j hj _
  simp only [length_latestValues] at hj
  by_cases hjx : x.1 = j
  · subst hjx
    simp [latestValues, List.filter_append]
  · simp [latestValues, List.filter_append, hjx]

/-- Recording a sample in an array of latest values is recording it in the samples read. -/
theorem toList_set_latest (width : ℕ) {latest : Array (Option ν)} {done : List (ℕ × κ × ν)}
    (h : latest.toList = latestValues width done) (x : ℕ × κ × ν) :
    (latest.set! x.1 (some x.2.2)).toList = latestValues width (done ++ [x]) := by
  rw [Array.set!, Array.toList_setIfInBounds, h, latestValues_append_singleton]

end Latest

/-! ## Observations of a list of merged samples -/

section Observations

/-- The observations after the samples `done`, one for each run still to come: the run's first
key and the latest value of every input through the run's end. -/
def observationsFrom (width : ℕ) :
    List (ℕ × κ × ν) → List (List (ℕ × κ × ν)) → List (κ × List (Option ν))
  | _, [] => []
  | done, [] :: gs => observationsFrom width done gs
  | done, (x :: g) :: gs =>
    (x.2.1, latestValues width (done ++ x :: g)) :: observationsFrom width (done ++ x :: g) gs

theorem length_observationsFrom_le (width : ℕ) :
    ∀ (done : List (ℕ × κ × ν)) (gs : List (List (ℕ × κ × ν))),
      (observationsFrom width done gs).length ≤ gs.length
  | _, [] => by simp [observationsFrom]
  | done, [] :: gs => by
    rw [observationsFrom, List.length_cons]
    exact (length_observationsFrom_le width done gs).trans (Nat.le_succ _)
  | done, (x :: g) :: gs => by
    rw [observationsFrom, List.length_cons, List.length_cons]
    exact Nat.succ_le_succ (length_observationsFrom_le width _ gs)

variable [WeakEq κ]

/-- Two samples are of one run when the later's key is weakly equal to the first's. -/
def sameKey (t : Tolerance) (a b : ℕ × κ × ν) : Bool := weakEq t a.2.1 b.2.1

/-- The observations of merged samples: one per run of keys weakly equal to the run's first. -/
def observations (t : Tolerance) (width : ℕ) (M : List (ℕ × κ × ν)) :
    List (κ × List (Option ν)) :=
  observationsFrom width [] (runs (sameKey t) M)

variable (t : Tolerance) (width : ℕ)

/-- The first run still to come gives the next observation. -/
theorem observationsFrom_runs_cons (done : List (ℕ × κ × ν)) (x : ℕ × κ × ν)
    (xs : List (ℕ × κ × ν)) :
    observationsFrom width done (runs (sameKey t) (x :: xs)) =
      (x.2.1, latestValues width (done ++ x :: xs.takeWhile (sameKey t · x))) ::
        observationsFrom width (done ++ x :: xs.takeWhile (sameKey t · x))
          (runs (sameKey t) (xs.dropWhile (sameKey t · x))) := by
  rw [runs_cons, observationsFrom]

theorem isEmpty_observationsFrom_runs (done rem : List (ℕ × κ × ν)) :
    (observationsFrom width done (runs (sameKey t) rem)).isEmpty = rem.isEmpty := by
  cases rem with
  | nil => simp [observationsFrom]
  | cons x xs =>
    rw [observationsFrom_runs_cons]
    rfl

/-- There are no more observations than samples. -/
theorem length_observations_le (M : List (ℕ × κ × ν)) :
    (observations t width M).length ≤ M.length :=
  (length_observationsFrom_le width [] _).trans (length_runs_le _ M)

end Observations

/-! ## The sample merge over a merged input that yields a list -/

namespace SampleMerge

/-- Between two observations: none is half assembled, the latest values are those after the
samples `done`, and the held sample followed by what the merged input holds is `rem`. -/
structure Rests (R : σ → List (ℕ × κ × ν) → Prop) (width : ℕ) (done rem : List (ℕ × κ × ν))
    (p : SampleMerge κ ν × σ) : Prop where
  current : p.1.current = none
  latest : p.1.latest.toList = latestValues width done
  rest : ∃ ys, R p.2 ys ∧ p.1.pending.toList ++ ys = rem

variable {merged : Feed σ (ℕ × κ × ν)} {R : σ → List (ℕ × κ × ν) → Prop} (width : ℕ)

/-- A fresh sample merge rests before every sample. -/
theorem rests_initial {s : σ} {M : List (ℕ × κ × ν)} (hs : R s M) :
    Rests R width [] M (initial width, s) :=
  ⟨rfl, by simp [initial, latestValues_nil], M, hs, rfl⟩

/-- Asked whether it has more, a resting sample merge answers whether samples are still to
come. -/
theorem hasNext_rests (hin : merged.Yields R) {done rem : List (ℕ × κ × ν)}
    {st : SampleMerge κ ν} {s : σ} (hp : Rests R width done rem (st, s)) :
    ∃ s', hasNext merged st s = (.ok !rem.isEmpty, s') ∧ Rests R width done rem (st, s') := by
  obtain ⟨hcur, hlat, ys, hs, hrem⟩ := hp
  dsimp only at hcur hlat hs hrem
  cases hpend : st.pending with
  | some x =>
    -- a held sample: more is to come, and the merged input is not asked
    refine ⟨s, ?_, ⟨hcur, hlat, ys, hs, hrem⟩⟩
    rw [← hrem, hpend]
    simp [hasNext, hpend]
  | none =>
    rw [hpend, Option.toList_none, List.nil_append] at hrem
    subst hrem
    obtain ⟨s', hh, hs'⟩ := hin.hasNext hs
    refine ⟨s', ?_, ⟨hcur, hlat, ys, hs', by rw [hpend]; rfl⟩⟩
    simp [hasNext, hpend, hcur, hh]

variable [WeakEq κ] (t : Tolerance)

/-- **Assembling one observation.** From a merged input holding `ys`, `gather` records the
samples of `ys` whose keys are weakly equal to `key`, up to the first that is not, and holds
that one back. -/
theorem gather_eq (hin : merged.Yields R) (key : κ) :
    ∀ (fuel : ℕ) (st : SampleMerge κ ν) {s : σ} {ys done : List (ℕ × κ × ν)},
      st.pending = none → R s ys → st.latest.toList = latestValues width done →
      ys.length < fuel →
      ∃ st' s', gather t merged key fuel st s = (.ok (), st', s') ∧ st'.current = st.current ∧
        st'.pending = (ys.dropWhile fun y => weakEq t y.2.1 key).head? ∧
        st'.latest.toList = latestValues width (done ++ ys.takeWhile fun y => weakEq t y.2.1 key) ∧
        R s' (ys.dropWhile fun y => weakEq t y.2.1 key).tail
  | 0, _, _, _, _, _, _, _, hn => absurd hn (Nat.not_lt_zero _)
  | fuel + 1, st, s, ys, done, hpend, hs, hlat, hn => by
    obtain ⟨s₁, hpull, hs₁⟩ := hin.pull hs
    cases ys with
    | nil =>
      -- the merged input has ended: the observation is complete
      refine ⟨st, s₁, ?_, rfl, hpend, by simpa using hlat, hs₁⟩
      simp [gather, hpull]
    | cons y ys =>
      rw [List.head?_cons] at hpull
      rw [List.tail_cons] at hs₁
      -- the run goes on while keys are weakly equal to `key`
      let p : ℕ × κ × ν → Bool := fun z => weakEq t z.2.1 key
      by_cases hy : p y = true
      · -- `y` is of the run: its value is recorded and the run goes on
        obtain ⟨st', s', hg, hcur, hpend', hlat', hs'⟩ :=
          gather_eq hin key fuel { st with latest := st.latest.set! y.1 (some y.2.2) } hpend hs₁
            (toList_set_latest width hlat y) (by simpa using hn)
        have hd : (y :: ys).dropWhile p = ys.dropWhile p := List.dropWhile_cons_of_pos hy
        have ht : (y :: ys).takeWhile p = y :: ys.takeWhile p := List.takeWhile_cons_of_pos hy
        refine ⟨st', s', ?_, hcur, ?_, ?_, ?_⟩
        · simp only [gather, hpull, show weakEq t y.2.1 key = true from hy, if_true]
          exact hg
        · rw [hd]
          exact hpend'
        · rw [ht, hlat', List.append_assoc, List.singleton_append]
        · rw [hd]
          exact hs'
      · -- `y` starts the next run: it is held back
        have hd : (y :: ys).dropWhile p = y :: ys := List.dropWhile_cons_of_neg hy
        have ht : (y :: ys).takeWhile p = [] := List.takeWhile_cons_of_neg hy
        refine ⟨{ st with pending := some y }, s₁, ?_, rfl, ?_, ?_, ?_⟩
        · simp only [gather, hpull, show weakEq t y.2.1 key = false from Bool.eq_false_iff.2 hy,
            Bool.false_eq_true, if_false]
        · rw [hd]
          rfl
        · rw [ht, List.append_nil]
          exact hlat
        · rw [hd]
          exact hs₁

theorem tryNext_of_current (fuel : ℕ) {st : SampleMerge κ ν} {s : σ} {key : κ}
    (hcur : st.current = some key) :
    tryNext t merged fuel st s =
      match gather t merged key fuel st s with
      | (.error h, st, s) => (.error h, st, s)
      | (.ok (), st, s) => (.ok (key, st.latest.toList), { st with current := none }, s) := by
  obtain ⟨pending, current, latest⟩ := st
  dsimp only at hcur
  subst hcur
  rfl

theorem tryNext_of_pending (fuel : ℕ) {st : SampleMerge κ ν} {s : σ} {x : ℕ × κ × ν}
    (hcur : st.current = none) (hpend : st.pending = some x) :
    tryNext t merged fuel st s =
      tryNext t merged fuel ⟨none, some x.2.1, st.latest.set! x.1 (some x.2.2)⟩ s := by
  simp only [tryNext, hcur, hpend]

theorem tryNext_of_pull (fuel : ℕ) {st : SampleMerge κ ν} {s s₁ : σ} {x : ℕ × κ × ν}
    (hcur : st.current = none) (hpend : st.pending = none)
    (hpull : merged.pull s = (.ok (some x), s₁)) :
    tryNext t merged fuel st s =
      tryNext t merged fuel ⟨none, some x.2.1, st.latest.set! x.1 (some x.2.2)⟩ s₁ := by
  simp only [tryNext, hcur, hpend, hpull]

/-- **One observation.** A resting sample merge with `x :: xs` still to come hands out the
observation of the run that `x` starts, and rests after that run. -/
theorem tryNext_rests (hin : merged.Yields R) {fuel : ℕ} {done xs : List (ℕ × κ × ν)}
    {x : ℕ × κ × ν} {st : SampleMerge κ ν} {s : σ} (hp : Rests R width done (x :: xs) (st, s))
    (hfuel : xs.length < fuel) :
    ∃ st' s', tryNext t merged fuel st s =
        (.ok (x.2.1, latestValues width (done ++ x :: xs.takeWhile (sameKey t · x))), st', s') ∧
      Rests R width (done ++ x :: xs.takeWhile (sameKey t · x)) (xs.dropWhile (sameKey t · x))
        (st', s') := by
  obtain ⟨hcur, hlat, ys, hs, hrem⟩ := hp
  dsimp only at hcur hlat hs hrem
  -- the run starts with the held sample, or else with the merged input's next
  obtain ⟨s₁, hs₁, hstart⟩ : ∃ s₁, R s₁ xs ∧ tryNext t merged fuel st s =
      tryNext t merged fuel ⟨none, some x.2.1, st.latest.set! x.1 (some x.2.2)⟩ s₁ := by
    cases hpend : st.pending with
    | some p =>
      rw [hpend, Option.toList_some, List.singleton_append] at hrem
      obtain ⟨rfl, rfl⟩ := List.cons_eq_cons.1 hrem
      exact ⟨s, hs, tryNext_of_pending t fuel hcur hpend⟩
    | none =>
      rw [hpend, Option.toList_none, List.nil_append] at hrem
      subst hrem
      obtain ⟨s₁, hpull, hs₁⟩ := hin.pull hs
      exact ⟨s₁, hs₁, tryNext_of_pull t fuel hcur hpend hpull⟩
  obtain ⟨st', s', hg, -, hpend', hlat', hs'⟩ :=
    gather_eq width t hin x.2.1 fuel ⟨none, some x.2.1, st.latest.set! x.1 (some x.2.2)⟩ rfl hs₁
      (toList_set_latest width hlat x) hfuel
  have hsame : (fun y : ℕ × κ × ν => weakEq t y.2.1 x.2.1) = (sameKey t · x) := rfl
  rw [hsame] at hpend' hlat' hs'
  rw [List.append_assoc, List.singleton_append] at hlat'
  refine ⟨{ st' with current := none }, s', ?_, ⟨rfl, hlat', _, hs', ?_⟩⟩
  · rw [hstart, tryNext_of_current t fuel rfl, hg]
    simp only [hlat']
  · rw [show ({ st' with current := none } : SampleMerge κ ν).pending = st'.pending from rfl,
      hpend', toList_head?_append_tail]

/-- **The sample merge yields the observations** of the samples still to come, over a merged
input that yields a list. -/
theorem yields_observations (hin : merged.Yields R) (fuel : ℕ) :
    (feed t merged fuel).Yields fun p out => ∃ done rem, Rests R width done rem p ∧
      rem.length ≤ fuel ∧ out = observationsFrom width done (runs (sameKey t) rem) where
  hasNext := by
    rintro ⟨st, s⟩ _ ⟨done, rem, hp, hfuel, rfl⟩
    obtain ⟨s', hh, hp'⟩ := hasNext_rests width hin hp
    refine ⟨(st, s'), ?_, done, rem, hp', hfuel, rfl⟩
    simp only [feed, hh, isEmpty_observationsFrom_runs]
  tryNext := by
    rintro ⟨st, s⟩ a out ⟨done, rem, hp, hfuel, hout⟩
    cases rem with
    | nil => simp [observationsFrom] at hout
    | cons x xs =>
      rw [observationsFrom_runs_cons] at hout
      obtain ⟨rfl, rfl⟩ := List.cons_eq_cons.1 hout
      have hxs : xs.length < fuel := by simpa using hfuel
      obtain ⟨st', s', htry, hp'⟩ := tryNext_rests width t hin hp hxs
      refine ⟨(st', s'), by simp only [feed, htry], _, _, hp', ?_, rfl⟩
      exact (List.length_dropWhile_le _ _).trans hxs.le

/-- Drained from the start, a sample merge over a merged input that yields `M` hands out the
observations of `M`. -/
theorem takeAll_observations (hin : merged.Yields R) {s : σ} {M : List (ℕ × κ × ν)}
    (hs : R s M) {fuel n : ℕ} (hfuel : M.length ≤ fuel) (hn : M.length < n) :
    ((feed t merged fuel).takeAll n [] (initial width, s)).1 = .ok (observations t width M) :=
  (yields_observations width t hin fuel).takeAll_nil ⟨[], M, rests_initial width hs, hfuel, rfl⟩
    ((length_observations_le t width M).trans_lt hn)

end SampleMerge

/-! ## Samples tagged by their input -/

section Tags

variable {α : Type}

/-- Each list's elements, tagged with the list's index. -/
def tagLists (ls : List (List α)) : List (List (ℕ × α)) :=
  ls.mapIdx fun j l => l.map (Prod.mk j)

/-- Each input's elements, tagged with the input's index. -/
def tagInputs (inputs : List (Feed σ α)) : List (Feed σ (ℕ × α)) :=
  inputs.mapIdx fun j f => f.map (Prod.mk j)

@[simp] theorem length_tagLists (ls : List (List α)) : (tagLists ls).length = ls.length := by
  simp [tagLists]

@[simp] theorem length_tagInputs (inputs : List (Feed σ α)) :
    (tagInputs inputs).length = inputs.length := by
  simp [tagInputs]

theorem getD_tagLists (ls : List (List α)) (j : ℕ) :
    (tagLists ls).getD j [] = (ls.getD j []).map (Prod.mk j) := by
  rw [List.getD_eq_getElem?_getD, List.getD_eq_getElem?_getD, tagLists, List.getElem?_mapIdx]
  cases ls[j]? <;> rfl

theorem tagLists_set (ls : List (List α)) (i : ℕ) (xs : List α) :
    tagLists (ls.set i xs) = (tagLists ls).set i (xs.map (Prod.mk i)) :=
  List.mapIdx_set

/-- Untagged, the tagged lists are the lists. -/
theorem map_snd_flatten_tagLists (ls : List (List α)) :
    (tagLists ls).flatten.map Prod.snd = ls.flatten := by
  have huntag : (tagLists ls).map (List.map Prod.snd) = ls := by
    apply List.ext_getElem? 
    intro j
    rw [List.getElem?_map, tagLists, List.getElem?_mapIdx]
    cases ls[j]? <;> simp
  rw [List.map_flatten, huntag]

/-- An input tagged by its index yields its list tagged alike, among lists all tagged by their
index. -/
theorem Feed.YieldsAt.tag {f : Feed σ α} {R : σ → List (List α) → Prop} {i : ℕ}
    (h : f.YieldsAt R i) :
    (f.map (Prod.mk i)).YieldsAt (fun s ls => ∃ ls₀, R s ls₀ ∧ ls = tagLists ls₀) i where
  hasNext := by
    rintro s _ ⟨ls, hs, rfl⟩
    obtain ⟨s', hh, hs'⟩ := h.hasNext hs
    refine ⟨s', ?_, ls, hs', rfl⟩
    rw [getD_tagLists, List.isEmpty_map]
    exact hh
  tryNext := by
    rintro s _ b ys ⟨ls, hs, rfl⟩ hget
    rw [getD_tagLists] at hget
    obtain ⟨a, xs, hl, rfl, rfl⟩ := List.map_eq_cons_iff.1 hget
    obtain ⟨s', ht, hs'⟩ := h.tryNext hs hl
    refine ⟨s', by simp only [Feed.map, ht]; rfl, ls.set i xs, hs', ?_⟩
    rw [tagLists_set]

/-- The tagged inputs of inputs that yield their lists yield the tagged lists. -/
theorem yieldsAt_tagInputs {inputs : List (Feed σ α)} {R : σ → List (List α) → Prop}
    (hin : ∀ (i : ℕ) (f : Feed σ α), inputs[i]? = some f → f.YieldsAt R i) :
    ∀ (i : ℕ) (f : Feed σ (ℕ × α)), (tagInputs inputs)[i]? = some f →
      f.YieldsAt (fun s ls => ∃ ls₀, R s ls₀ ∧ ls = tagLists ls₀) i := by
  intro i f hf
  rw [tagInputs, List.getElem?_mapIdx] at hf
  obtain ⟨g, hg, rfl⟩ := Option.map_eq_some_iff.1 hf
  exact (hin i g hg).tag

end Tags

/-! ## The stable merge of tagged lists -/

section TaggedMerge

variable {α : Type} (cmp : ℕ × α → ℕ × α → Ordering) (ls : List (List α))

/-- In the stable merge of tagged lists, each element's own tag is that of its list. -/
theorem tag_eq_of_mem_stableMerge {p : ℕ × ℕ × α} (hp : p ∈ stableMerge cmp (tagLists ls)) :
    p.2.1 = p.1 := by
  have h := mem_mergeTagged cmp _ (tagLists ls) p hp
  rw [getD_tagLists] at h
  obtain ⟨a, -, ha⟩ := List.mem_map.1 h
  rw [← ha]

theorem perm_untag_stableMerge :
    (((stableMerge cmp (tagLists ls)).map Prod.snd).map Prod.snd).Perm ls.flatten := by
  have h := (perm_stableMerge cmp (tagLists ls)).map Prod.snd
  rwa [map_snd_flatten_tagLists] at h

theorem filter_untag_stableMerge (j : ℕ) :
    (((stableMerge cmp (tagLists ls)).map Prod.snd).filter (·.1 == j)).map Prod.snd =
      ls.getD j [] := by
  -- an element's own tag and its merge tag agree, so either may be filtered by
  have htag : (stableMerge cmp (tagLists ls)).filter ((·.1 == j) ∘ Prod.snd) =
      (stableMerge cmp (tagLists ls)).filter (·.1 == j) :=
    List.filter_congr fun p hp => by simp [tag_eq_of_mem_stableMerge cmp ls hp]
  rw [List.filter_map, htag, filter_stableMerge, getD_tagLists, List.map_map]
  simp

theorem untag_stableMerge_sorted {β : Type} [LinearOrder β] {P : α → Prop} {f : α → β}
    (hcmp : ∀ a b : ℕ × α, P a.2 → P b.2 → cmp a b = compare (f a.2) (f b.2))
    (hl : ∀ l ∈ ls, (∀ a ∈ l, P a) ∧ l.Pairwise (fun a b => f a ≤ f b)) :
    ((stableMerge cmp (tagLists ls)).map Prod.snd).Pairwise
      (fun p q => f p.2 < f q.2 ∨ (f p.2 = f q.2 ∧ p.1 ≤ q.1)) := by
  have hl' : ∀ l ∈ tagLists ls, (∀ a ∈ l, P a.2) ∧ l.Pairwise (fun a b => f a.2 ≤ f b.2) := by
    intro l hlm
    obtain ⟨j, hj, rfl⟩ := List.mem_mapIdx.1 hlm
    obtain ⟨hP, hsort⟩ := hl ls[j] (List.getElem_mem hj)
    refine ⟨fun a ha => ?_, List.pairwise_map.2 hsort⟩
    obtain ⟨x, hx, rfl⟩ := List.mem_map.1 ha
    exact hP x hx
  rw [List.pairwise_map]
  refine (stableMerge_sorted cmp hcmp hl').imp_of_mem fun hp hq hpq => ?_
  rwa [tag_eq_of_mem_stableMerge cmp ls hp, tag_eq_of_mem_stableMerge cmp ls hq]

end TaggedMerge

/-! ## The sample merge of inputs sorted by key -/

/-- **The sample merge reports the latest value of every input at each merged key.** Over inputs
of samples sorted by keys that compare as a linear order, merging by least key with each sample
tagged by its input gives their stable merge `M`: every sample once, sorted by key and then by
input, each input's samples in their order. The sample merge over it hands out the observations
of `M`, one per run of keys weakly equal to the run's first; combining each observation's values
by `combine` hands out the same keys with the combined values. -/
theorem merge_samples_observations [PartialCompare κ] [WeakEq κ] [LinearOrder β]
    {good : κ → Prop} {rank : κ → β} (hr : RankedOn good rank) (t : Tolerance)
    (combine : List (Option ν) → γ) {inputs : List (Feed σ (κ × ν))}
    {R : σ → List (List (κ × ν)) → Prop}
    (hin : ∀ (i : ℕ) (f : Feed σ (κ × ν)), inputs[i]? = some f → f.YieldsAt R i)
    {lists : List (List (κ × ν))} (hlen : lists.length = inputs.length)
    (hgood : ∀ l ∈ lists, ∀ x ∈ l, good x.1)
    (hsorted : ∀ l ∈ lists, l.Pairwise fun x y => rank x.1 ≤ rank y.1)
    {s : σ} (hs : R s lists) {fuel n : ℕ} (hfuel : lists.flatten.length ≤ fuel)
    (hn : lists.flatten.length < n) :
    ∃ M : List (ℕ × κ × ν), (M.map Prod.snd).Perm lists.flatten ∧
      M.Pairwise (fun p q => rank p.2.1 < rank q.2.1 ∨ (rank p.2.1 = rank q.2.1 ∧ p.1 ≤ q.1)) ∧
      (∀ j, (M.filter (·.1 == j)).map Prod.snd = lists.getD j []) ∧
      ((SampleMerge.feed t (Merge.feed (Merge.stateless (minHeadBy fun x : ℕ × κ × ν => x.2.1))
          true (tagInputs inputs)) fuel).takeAll n []
          (SampleMerge.initial inputs.length, MergeState.initial (), s)).1 =
        .ok (observations t inputs.length M) ∧
      (((SampleMerge.feed t (Merge.feed (Merge.stateless (minHeadBy fun x : ℕ × κ × ν => x.2.1))
          true (tagInputs inputs)) fuel).map fun o => (o.1, combine o.2)).takeAll n []
          (SampleMerge.initial inputs.length, MergeState.initial (), s)).1 =
        .ok ((observations t inputs.length M).map fun o => (o.1, combine o.2)) := by
  let cmp : ℕ × κ × ν → ℕ × κ × ν → Ordering := fun a b => (partialCompare a.2.1 b.2.1).getD .eq
  -- on good keys the selector's comparison is that of the ranks
  have hcmp : ∀ a b : ℕ × κ × ν, good a.2.1 → good b.2.1 →
      cmp a b = compare (rank a.2.1) (rank b.2.1) :=
    fun _ _ ha hb => hr.getD_partialCompare ha hb
  have hpick : minHeadBy (fun x : ℕ × κ × ν => x.2.1) = selectMinBy cmp := rfl
  let M := (stableMerge cmp (tagLists lists)).map Prod.snd
  have hperm : (M.map Prod.snd).Perm lists.flatten := perm_untag_stableMerge cmp lists
  have hM : M.length = lists.flatten.length := by simpa using hperm.length_eq
  -- the merge of the tagged inputs yields `M`, and the sample merge over it its observations
  have hmerge := Merge.yields_stableMerge (yieldsAt_tagInputs hin) cmp
  have hstart : MergeState.Pending (tagInputs inputs)
      (fun s ls => ∃ ls₀, R s ls₀ ∧ ls = tagLists ls₀) (tagLists lists) (MergeState.initial (), s) :=
    MergeState.pending_initial (by rw [length_tagLists, length_tagInputs, hlen]) ⟨lists, hs, rfl⟩
  have hobs := SampleMerge.yields_observations inputs.length t hmerge fuel
  have hfuel' : M.length ≤ fuel := by rw [hM]; exact hfuel
  have hcount : (observations t inputs.length M).length < n :=
    (length_observations_le t inputs.length M).trans_lt (by rw [hM]; exact hn)
  refine ⟨M, hperm, untag_stableMerge_sorted cmp lists hcmp fun l hl => ⟨hgood l hl, hsorted l hl⟩,
    filter_untag_stableMerge cmp lists, ?_, ?_⟩
  · rw [hpick]
    exact SampleMerge.takeAll_observations inputs.length t hmerge ⟨tagLists lists, hstart, rfl⟩
      hfuel' (by rw [hM]; exact hn)
  · rw [hpick]
    exact (hobs.map _).takeAll_nil
      ⟨_, ⟨[], M, SampleMerge.rests_initial inputs.length ⟨tagLists lists, hstart, rfl⟩, hfuel', rfl⟩,
        rfl⟩
      (by rwa [List.length_map])

/-- Two inputs of integer-keyed samples: the samples at key `1` of both make one observation, and
each later observation keeps the other input's latest value. -/
theorem merge_samples_observations_two_inputs :
    ∃ M : List (ℕ × Int64 × ℕ),
      observations Tolerance.exact 2 M =
        [(1, [some 10, some 100]), (2, [some 10, some 200]), (3, [some 30, some 200])] ∧
      ((SampleMerge.feed Tolerance.exact
          (Merge.feed (Merge.stateless (minHeadBy fun x : ℕ × Int64 × ℕ => x.2.1)) true
            (tagInputs ((List.range 2).map Feed.nth))) 8).takeAll 8 []
          (SampleMerge.initial 2, MergeState.initial (), [[(1, 10), (3, 30)], [(1, 100), (2, 200)]])).1 =
        .ok (observations Tolerance.exact 2 M) := by
  obtain ⟨M, -, -, -, hrun, -⟩ := merge_samples_observations Series.rankedOn_toInt Tolerance.exact
    List.length (Feed.yieldsAt_nths 2)
    (by decide : ([[(1, 10), (3, 30)], [(1, 100), (2, 200)]] : List (List (Int64 × ℕ))).length = 2)
    (fun _ _ _ _ => trivial) (by decide) rfl (by decide : 4 ≤ 8) (by decide : 4 < 8)
  have hval : ((SampleMerge.feed Tolerance.exact
      (Merge.feed (Merge.stateless (minHeadBy fun x : ℕ × Int64 × ℕ => x.2.1)) true
        (tagInputs ((List.range 2).map Feed.nth))) 8).takeAll 8 []
      (SampleMerge.initial 2, MergeState.initial (),
        ([[(1, 10), (3, 30)], [(1, 100), (2, 200)]] : List (List (Int64 × ℕ))))).1 =
      .ok [(1, [some 10, some 100]), (2, [some 10, some 200]), (3, [some 30, some 200])] := by
    cbv
  simp only [List.length_map, List.length_range] at hrun
  refine ⟨M, ?_, hrun⟩
  rw [hrun] at hval
  exact Except.ok.inj hval

end LazySeq
