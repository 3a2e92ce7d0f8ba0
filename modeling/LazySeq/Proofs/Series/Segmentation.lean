import LazySeq.Proofs.Series.Hull

/-!
# Segmentation refines the full check

Read in exact arithmetic, `linearize` cuts its samples exactly where the full check does: a run
goes on while the least-squares line refitted over all its points and the next one keeps every
one of them within the bound, and the first sample that breaks this starts the next run
(`fullCheck`). The running fit checks only the vertices of its two hull chains and the new
point; `Fit.Represents` says that it holds the sums, the count, the largest magnitude and both
chains of its run, and with keys whose offsets strictly increase that check is the full one
(`Fit.Represents.extend_some`, `Fit.Represents.extend_none`). The samples are read one by one
(`advance_fullCheck`) and the segments handed out one by one (`takeAll_fullCheck`), so the whole
output is the full check's (`linearize_refines_full_check`). The full check in turn cuts the
samples into runs that each lie within the bound of their segment and that cannot take the sample
after them (`Segmentation.fullCheck_runs`).

A repeated key breaks the refinement: the hull chains drop a point straight above another, and
the run takes a sample the full check refuses (`repeated_key_escapes_hull`).
-/

namespace LazySeq

open Hull

variable {κ : Type}

namespace Segmentation

/-- The least-squares line through a run's points, from their sums. -/
def lineThrough (pts : List (Point ℚ)) : ℚ × ℚ :=
  Fit.line (pts.length : ℚ) (pts.map (·.1)).sum (pts.map (·.2)).sum
    (pts.map fun p => p.1 * p.1).sum (pts.map fun p => p.1 * p.2).sum

/-- The largest magnitude among a run's values (zero for no values). -/
def magnitude (pts : List (Point ℚ)) : ℚ := (pts.map fun p => |p.2|).foldl max 0

/-- The bound a run's points are held to: `ε + 10⁻¹² · max(M, 1)`, `M` the largest magnitude. -/
def bound (eps : ℚ) (pts : List (Point ℚ)) : ℚ := eps + 1e-12 * max (magnitude pts) 1

/-- Every point of a run lies within the bound of the run's least-squares line. -/
def FitsAll (eps : ℚ) (pts : List (Point ℚ)) : Prop :=
  ∀ p ∈ pts, |(lineThrough pts).1 + (lineThrough pts).2 * p.1 - p.2| ≤ bound eps pts

instance (eps : ℚ) (pts : List (Point ℚ)) : Decidable (FitsAll eps pts) :=
  inferInstanceAs (Decidable (∀ p ∈ pts, _))

/-- The segment of a run starting at `start`. -/
def segmentOf (start : κ) (pts : List (Point ℚ)) : Segment κ ℚ :=
  ⟨start, (lineThrough pts).1, (lineThrough pts).2, pts.length⟩

theorem magnitude_append_singleton (pts : List (Point ℚ)) (x y : ℚ) :
    magnitude (pts ++ [(x, y)]) = max (magnitude pts) |y| := by
  simp [magnitude, List.foldl_append]

theorem lineThrough_append_singleton (pts : List (Point ℚ)) (x y : ℚ) :
    lineThrough (pts ++ [(x, y)]) =
      Fit.line ((pts.length : ℚ) + 1) ((pts.map (·.1)).sum + x) ((pts.map (·.2)).sum + y)
        ((pts.map fun p => p.1 * p.1).sum + x * x) ((pts.map fun p => p.1 * p.2).sum + x * y) := by
  simp [lineThrough]

end Segmentation

open Segmentation

namespace Fit

/-- A running fit holds the sums, the count and the largest magnitude of its run's points, its
lower chain, and its upper chain as the lower chain of the reflected points. -/
structure Represents (f : Fit ℚ) (pts : List (Point ℚ)) : Prop where
  n_eq : f.n = pts.length
  sumX_eq : f.sumX = (pts.map (·.1)).sum
  sumY_eq : f.sumY = (pts.map (·.2)).sum
  sumXX_eq : f.sumXX = (pts.map fun p => p.1 * p.1).sum
  sumXY_eq : f.sumXY = (pts.map fun p => p.1 * p.2).sum
  len_eq : f.len = pts.length
  maxAbsY_eq : f.maxAbsY = magnitude pts
  lower : Chain f.lower pts
  upper : Chain (f.upper.map flip) (pts.map flip)

theorem Represents.single (y : ℚ) : Represents (Fit.single y) [(0, y)] where
  n_eq := by simp [Fit.single]
  sumX_eq := by simp [Fit.single]
  sumY_eq := by simp [Fit.single]
  sumXX_eq := by simp [Fit.single]
  sumXY_eq := by simp [Fit.single]
  len_eq := rfl
  maxAbsY_eq := by simp [Fit.single, magnitude]
  lower := by simpa [Fit.single] using Chain.single ((0 : ℚ), y)
  upper := by simpa [Fit.single] using Chain.single (flip ((0 : ℚ), y))

variable {f : Fit ℚ} {pts : List (Point ℚ)}

theorem Represents.line_eq (h : Represents f pts) :
    Fit.line f.n f.sumX f.sumY f.sumXX f.sumXY = lineThrough pts := by
  rw [h.n_eq, h.sumX_eq, h.sumY_eq, h.sumXX_eq, h.sumXY_eq]
  rfl

theorem Represents.finish (h : Represents f pts) (start : κ) :
    f.finish start = segmentOf start pts := by
  simp only [Fit.finish, h.line_eq, segmentOf, h.len_eq]

/-- The check on the hull chains: a line's residuals within `B` at every vertex of both chains
and at a new point are within `B` at every point of the run extended by it. -/
theorem Represents.hull_check_iff (h : Represents f pts) (c m B x y : ℚ) :
    (((f.lower.all fun p => decide (|c + m * p.1 - p.2| ≤ B)) &&
        f.upper.all fun p => decide (|c + m * p.1 - p.2| ≤ B)) &&
        decide (|c + m * x - y| ≤ B)) = true ↔
      ∀ q ∈ pts ++ [(x, y)], |c + m * q.1 - q.2| ≤ B := by
  simp only [Bool.and_eq_true, List.all_eq_true, decide_eq_true_eq]
  rw [Chain.abs_le_iff h.lower h.upper]
  constructor
  · rintro ⟨hpts, hnew⟩ q hq
    rcases List.mem_append.1 hq with hq | hq
    · exact hpts q hq
    · rw [List.mem_singleton.1 hq]
      exact hnew
  · intro hall
    exact ⟨fun q hq => hall q (List.mem_append_left _ hq), hall (x, y) (by simp)⟩

/-- `extend` read exactly, on a fit that represents its run: it takes the point exactly when the
full check over the extended run passes, and then adds the point to the sums, the count, the
largest magnitude and both chains. -/
theorem Represents.extend_eq (h : Represents f pts) (x y eps : ℚ) :
    f.extend x y eps =
      if FitsAll eps (pts ++ [(x, y)]) then
        some {
          n := (pts.length : ℚ) + 1
          sumX := (pts.map (·.1)).sum + x
          sumY := (pts.map (·.2)).sum + y
          sumXX := (pts.map fun p => p.1 * p.1).sum + x * x
          sumXY := (pts.map fun p => p.1 * p.2).sum + x * y
          len := f.len + 1
          lower := pushHull true (x, y) f.lower
          upper := pushHull false (x, y) f.upper
          maxAbsY := max (magnitude pts) |y| }
      else none := by
  have hB : eps + 1e-12 * max (max (magnitude pts) |y|) 1 = bound eps (pts ++ [(x, y)]) := by
    rw [bound, magnitude_append_singleton]
  simp only [Fit.extend, h.n_eq, h.sumX_eq, h.sumY_eq, h.sumXX_eq, h.sumXY_eq, h.maxAbsY_eq,
    floatMax_exact, ofScientific_exact, add_exact, mul_exact, one_exact, abs_exact, le_exact,
    ← lineThrough_append_singleton, hB]
  exact if_congr (h.hull_check_iff _ _ _ x y) rfl rfl

variable {x y eps : ℚ}

/-- A point the full check refuses is refused by the hull check. -/
theorem Represents.extend_none (h : Represents f pts) (hfits : ¬FitsAll eps (pts ++ [(x, y)])) :
    f.extend x y eps = none := by
  rw [h.extend_eq, if_neg hfits]

/-- A point right of the whole run that the full check accepts is accepted by the hull check,
and the extended fit represents the extended run. -/
theorem Represents.extend_some (h : Represents f pts) (hx : ∀ q ∈ pts, q.1 < x)
    (hfits : FitsAll eps (pts ++ [(x, y)])) :
    ∃ f', f.extend x y eps = some f' ∧ Represents f' (pts ++ [(x, y)]) := by
  rw [h.extend_eq, if_pos hfits]
  exact ⟨_, rfl, {
    n_eq := by simp
    sumX_eq := by simp
    sumY_eq := by simp
    sumXX_eq := by simp
    sumXY_eq := by simp
    len_eq := by simp [h.len_eq]
    maxAbsY_eq := (magnitude_append_singleton pts x y).symm
    lower := h.lower.push hx
    upper := h.upper.push_upper hx }⟩

end Fit

/-! ### Reading the samples -/

@[simp] theorem Feed.pull_ofList_nil {α : Type} : (Feed.ofList (α := α)).pull [] = (.ok none, []) :=
  rfl

@[simp] theorem Feed.pull_ofList_cons {α : Type} (a : α) (rest : List α) :
    Feed.ofList.pull (a :: rest) = (.ok (some a), rest) :=
  rfl

/-- Reading the segmentation with nothing kept ahead hands out what `advance` finds, and keeps
nothing ahead. -/
theorem Linearize.pull_feed {σ R : Type} [FitArith R] [Axis κ R] {eps : R}
    {samples : Feed σ (κ × R)} {fuel : ℕ} {current current' : Option (κ × Fit R)} {s s' : σ}
    {r : Option (Segment κ R)} (h : Linearize.advance eps samples fuel current s = (.ok r, current', s')) :
    (Linearize.feed eps fuel samples).pull (⟨current, none⟩, s) = (.ok r, (⟨current', none⟩, s')) := by
  cases r <;> simp [Feed.pull, Linearize.feed, Linearize.hasNext, Linearize.tryNext, h]

section Keys

variable [Axis κ ℚ]

namespace Segmentation

/-- The points of a run of samples: each value at its key's offset from the run's first key, the
first value at zero. -/
def pointsOf : List (κ × ℚ) → List (Point ℚ)
  | [] => []
  | (s, y) :: rest => (0, y) :: rest.map fun p => (offsetFrom p.1 s, p.2)

theorem pointsOf_append_singleton (s t : κ) (y y' : ℚ) (run : List (κ × ℚ)) :
    pointsOf ((s, y) :: run ++ [(t, y')]) = pointsOf ((s, y) :: run) ++ [(offsetFrom t s, y')] := by
  simp [pointsOf]

/-- The full-check segmentation of the samples after a run in progress: the run takes the next
sample while the line refitted over all of its samples and the new one keeps every one of them
within the bound; the first sample that breaks this starts the next run. -/
def fullCheck (eps : ℚ) : List (κ × ℚ) → List (κ × ℚ) → List (Segment κ ℚ)
  | [], [] => []
  | (s, y) :: run, [] => [segmentOf s (pointsOf ((s, y) :: run))]
  | [], p :: rest => fullCheck eps [p] rest
  | (s, y) :: run, p :: rest =>
    if FitsAll eps (pointsOf ((s, y) :: run ++ [p])) then fullCheck eps ((s, y) :: run ++ [p]) rest
    else segmentOf s (pointsOf ((s, y) :: run)) :: fullCheck eps [p] rest

/-- Keys read exactly: the offsets from each key of the keys after it are positive and strictly
increase along the list. -/
def OffsetsIncrease : List κ → Prop
  | [] => True
  | s :: rest => (∀ t ∈ rest, 0 < offsetFrom t s) ∧
      rest.Pairwise (fun t t' => offsetFrom t s < offsetFrom t' s) ∧ OffsetsIncrease rest

theorem OffsetsIncrease.tail {s : κ} {rest : List κ} (h : OffsetsIncrease (s :: rest)) :
    OffsetsIncrease rest :=
  h.2.2

theorem OffsetsIncrease.of_append_right : ∀ {l₁ l₂ : List κ}, OffsetsIncrease (l₁ ++ l₂) →
    OffsetsIncrease l₂
  | [], _, h => h
  | _ :: _, _, h => OffsetsIncrease.of_append_right h.tail

/-- The points of a run lie left of the offset of the key after it. -/
theorem OffsetsIncrease.lt_of_mem_pointsOf {s t : κ} {y y' : ℚ} {run rest : List (κ × ℚ)}
    (h : OffsetsIncrease (((s, y) :: run ++ (t, y') :: rest).map Prod.fst)) :
    ∀ q ∈ pointsOf ((s, y) :: run), q.1 < offsetFrom t s := by
  simp only [List.cons_append, List.map_cons, List.map_append] at h
  obtain ⟨hpos, hinc, -⟩ := h
  intro q hq
  simp only [pointsOf, List.mem_cons, List.mem_map] at hq
  rcases hq with rfl | ⟨p, hp, rfl⟩
  · exact hpos t (by simp)
  · exact (List.pairwise_append.1 hinc).2.2 p.1 (List.mem_map_of_mem hp) t (by simp)

end Segmentation

open Segmentation

/-- The running state of the segmentation against the full check's run in progress: both
empty, or the same first key with a fit that represents the run's points. -/
inductive Tracks : Option (κ × Fit ℚ) → List (κ × ℚ) → Prop
  | empty : Tracks none []
  | running {s : κ} {y : ℚ} {run : List (κ × ℚ)} {f : Fit ℚ} :
      f.Represents (pointsOf ((s, y) :: run)) → Tracks (some (s, f)) ((s, y) :: run)

theorem Tracks.single (t : κ) (y : ℚ) : Tracks (some (t, Fit.single y)) [(t, y)] := by
  have h : (Fit.single y).Represents (pointsOf [(t, y)]) := by
    simpa [pointsOf] using Fit.Represents.single y
  exact .running h

theorem Tracks.extend {s t : κ} {y y' : ℚ} {run : List (κ × ℚ)} {f : Fit ℚ}
    (h : f.Represents (pointsOf ((s, y) :: run) ++ [(offsetFrom t s, y')])) :
    Tracks (some (s, f)) ((s, y) :: run ++ [(t, y')]) := by
  rw [← pointsOf_append_singleton] at h
  exact .running h

/-- `advance` over a list of samples finds the first segment of the full check, if any, and
leaves a state that tracks the rest of the full check. -/
theorem advance_fullCheck (eps : ℚ) : ∀ (samples : List (κ × ℚ)) (fuel : ℕ)
    (current : Option (κ × Fit ℚ)) (run : List (κ × ℚ)),
    samples.length < fuel → Tracks current run → OffsetsIncrease ((run ++ samples).map Prod.fst) →
    ∃ r current' rest run', Linearize.advance eps Feed.ofList fuel current samples =
        (.ok r, current', rest) ∧ Tracks current' run' ∧
      OffsetsIncrease ((run' ++ rest).map Prod.fst) ∧
      fullCheck eps run samples = r.toList ++ fullCheck eps run' rest ∧
      rest.length ≤ samples.length ∧ (r = none → run' = [] ∧ rest = [])
  | [], fuel + 1, _, _, _, htrack, _ => by
    -- the end of the samples finishes the run in progress
    cases htrack with
    | empty => exact ⟨none, none, [], [], rfl, .empty, trivial, rfl, le_refl _, fun _ => ⟨rfl, rfl⟩⟩
    | running hrep =>
      refine ⟨some (segmentOf _ _), none, [], [], ?_, .empty, trivial, rfl, le_refl _, by simp⟩
      simp [Linearize.advance, hrep.finish]
  | (t, y') :: rest, fuel + 1, _, _, hfuel, htrack, hinc => by
    have hrest : rest.length < fuel := by simpa using hfuel
    cases htrack with
    | empty =>
      -- the sample starts a run
      obtain ⟨r, current', rest', run', hadv, htrack', hinc', hcheck, hlen, hend⟩ :=
        advance_fullCheck eps rest fuel (some (t, Fit.single y')) [(t, y')] hrest
          (Tracks.single t y') (by simpa using hinc)
      refine ⟨r, current', rest', run', ?_, htrack', hinc', ?_, ?_, hend⟩
      · simpa [Linearize.advance] using hadv
      · rw [fullCheck, hcheck]
      · simp only [List.length_cons]; omega
    | @running s y run f hrep =>
      have hx := OffsetsIncrease.lt_of_mem_pointsOf hinc
      have hnext : OffsetsIncrease (([(t, y')] ++ rest).map Prod.fst) := by
        rw [List.map_append] at hinc
        exact hinc.of_append_right
      by_cases hfits : FitsAll eps (pointsOf ((s, y) :: run ++ [(t, y')]))
      · -- the run takes the sample
        rw [pointsOf_append_singleton] at hfits
        obtain ⟨f', hext, hrep'⟩ := hrep.extend_some hx hfits
        obtain ⟨r, current', rest', run', hadv, htrack', hinc', hcheck, hlen, hend⟩ :=
          advance_fullCheck eps rest fuel (some (s, f')) ((s, y) :: run ++ [(t, y')]) hrest
            (Tracks.extend hrep') (by simpa using hinc)
        refine ⟨r, current', rest', run', ?_, htrack', hinc', ?_, ?_, hend⟩
        · simpa [Linearize.advance, hext] using hadv
        · rw [fullCheck, if_pos (by rwa [pointsOf_append_singleton]), hcheck]
        · simp only [List.length_cons]; omega
      · -- the sample breaks the run and starts the next one
        have hfits' : ¬FitsAll eps (pointsOf ((s, y) :: run) ++ [(offsetFrom t s, y')]) := by
          rwa [pointsOf_append_singleton] at hfits
        refine ⟨some (segmentOf s (pointsOf ((s, y) :: run))), some (t, Fit.single y'), rest,
          [(t, y')], ?_, Tracks.single t y', hnext, ?_, by simp, by simp⟩
        · simp [Linearize.advance, hrep.extend_none hfits', hrep.finish]
        · rw [fullCheck, if_neg hfits]
          rfl

/-- Taking every segment, with nothing kept ahead, hands out the rest of the full check. -/
theorem takeAll_fullCheck (eps : ℚ) (fuel : ℕ) : ∀ (fuel' : ℕ) (acc : List (Segment κ ℚ))
    (current : Option (κ × Fit ℚ)) (run samples : List (κ × ℚ)),
    samples.length < fuel → (fullCheck eps run samples).length < fuel' → Tracks current run →
    OffsetsIncrease ((run ++ samples).map Prod.fst) →
    ((Linearize.feed eps fuel Feed.ofList).takeAll fuel' acc (⟨current, none⟩, samples)).1 =
      .ok (acc.reverse ++ fullCheck eps run samples)
  | fuel' + 1, acc, current, run, samples, hfuel, hlen, htrack, hinc => by
    obtain ⟨r, current', rest, run', hadv, htrack', hinc', hcheck, hrest, hend⟩ :=
      advance_fullCheck eps samples fuel current run hfuel htrack hinc
    rw [Feed.takeAll, Linearize.pull_feed hadv]
    cases r with
    | none =>
      obtain ⟨rfl, rfl⟩ := hend rfl
      simp [hcheck, fullCheck]
    | some g =>
      rw [hcheck] at hlen ⊢
      have hnext := takeAll_fullCheck eps fuel fuel' (g :: acc) current' run' rest (by omega)
        (by simpa using hlen) htrack' hinc'
      simpa using hnext

theorem length_fullCheck_le (eps : ℚ) : ∀ (run samples : List (κ × ℚ)),
    (fullCheck eps run samples).length ≤ samples.length + min run.length 1
  | [], [] => le_refl _
  | _ :: _, [] => by simp [fullCheck]
  | [], p :: rest => by
    have h := length_fullCheck_le eps [p] rest
    simp only [fullCheck, List.length_cons] at h ⊢
    omega
  | (s, y) :: run, p :: rest => by
    have hkeep := length_fullCheck_le eps ((s, y) :: run ++ [p]) rest
    have hbreak := length_fullCheck_le eps [p] rest
    simp only [List.length_cons, List.length_append, List.length_nil] at hkeep hbreak
    rw [fullCheck]
    split <;> simp only [List.length_cons] <;> omega

namespace Segmentation

variable {eps : ℚ}

/-- A single sample lies on its own flat line, so it fits whenever `ε ≥ 0`. -/
theorem fitsAll_single (heps : 0 ≤ eps) (t : κ) (y : ℚ) : FitsAll eps (pointsOf [(t, y)]) := by
  have hpts : pointsOf [(t, y)] = [((0 : ℚ), y)] := by simp [pointsOf]
  have hline : lineThrough [((0 : ℚ), y)] = (y, 0) := by
    simp [lineThrough, Fit.line]
  have hB : 0 ≤ bound eps [((0 : ℚ), y)] := by
    unfold bound
    positivity
  rw [FitsAll, hpts]
  intro q hq
  rw [List.mem_singleton.1 hq, hline]
  simpa using hB

/-- `g` is the segment of the run: it starts at the run's first key, it is the least-squares line
of the run's points, and every sample of the run lies within the bound of the segment's line at
the sample's key. -/
def SegmentOfRun (eps : ℚ) (g : Segment κ ℚ) (run : List (κ × ℚ)) : Prop :=
  ∃ s y rest, run = (s, y) :: rest ∧ g = segmentOf s (pointsOf run) ∧
    ∀ p ∈ run, |g.valueAt p.1 - p.2| ≤ bound eps (pointsOf run)

/-- A run whose points fit is the run of its segment, when a key is at offset zero from itself. -/
theorem segmentOfRun_of_fitsAll (hself : ∀ s : κ, offsetFrom s s = 0) {s : κ} {y : ℚ}
    {rest : List (κ × ℚ)} (h : FitsAll eps (pointsOf ((s, y) :: rest))) :
    SegmentOfRun eps (segmentOf s (pointsOf ((s, y) :: rest))) ((s, y) :: rest) := by
  refine ⟨s, y, rest, rfl, rfl, fun p hp => ?_⟩
  -- every sample's point is its key's offset from the run's first key
  have hpt : (offsetFrom p.1 s, p.2) ∈ pointsOf ((s, y) :: rest) := by
    rcases List.mem_cons.1 hp with rfl | hp
    · simp [pointsOf, hself]
    · exact List.mem_cons_of_mem _ (List.mem_map_of_mem (f := fun p => (offsetFrom p.1 s, p.2)) hp)
  simpa [Segment.valueAt, segmentOf] using h _ hpt

/-- The full check cuts the run in progress and the samples after it into runs: each segment it
hands out is the segment of its run, and no run but the last can take the first sample of the
run after it. The first run starts with the run in progress. -/
theorem fullCheck_runs (heps : 0 ≤ eps) (hself : ∀ s : κ, offsetFrom s s = 0) :
    ∀ (run samples : List (κ × ℚ)), (run ≠ [] → FitsAll eps (pointsOf run)) →
    ∃ runs : List (List (κ × ℚ)), runs.flatten = run ++ samples ∧
      List.Forall₂ (SegmentOfRun eps) (fullCheck eps run samples) runs ∧
      runs.IsChain (fun r r' => ∀ p ∈ r'.head?, ¬FitsAll eps (pointsOf (r ++ [p]))) ∧
      ∀ x ∈ run.head?, ∀ r ∈ runs.head?, r.head? = some x
  | [], [], _ => ⟨[], rfl, .nil, .nil, by simp⟩
  | (s, y) :: run, [], hfits =>
    ⟨[(s, y) :: run], by simp, .cons (segmentOfRun_of_fitsAll hself (hfits (by simp))) .nil,
      .singleton _, by simp⟩
  | [], (t, y') :: rest, _ => by
    obtain ⟨runs, hflat, hseg, hchain, -⟩ :=
      fullCheck_runs heps hself [(t, y')] rest fun _ => fitsAll_single heps t y'
    exact ⟨runs, by simpa using hflat, by rw [fullCheck]; exact hseg, hchain, by simp⟩
  | (s, y) :: run, (t, y') :: rest, hfits => by
    by_cases hnext : FitsAll eps (pointsOf ((s, y) :: run ++ [(t, y')]))
    · -- the run takes the sample
      obtain ⟨runs, hflat, hseg, hchain, hhead⟩ :=
        fullCheck_runs heps hself ((s, y) :: run ++ [(t, y')]) rest fun _ => hnext
      refine ⟨runs, by simpa using hflat, by rw [fullCheck, if_pos hnext]; exact hseg, hchain, ?_⟩
      intro x hx r hr
      exact hhead x (by simpa using hx) r hr
    · -- the run ends, and the sample starts the next one
      obtain ⟨runs, hflat, hseg, hchain, hhead⟩ :=
        fullCheck_runs heps hself [(t, y')] rest fun _ => fitsAll_single heps t y'
      refine ⟨((s, y) :: run) :: runs, by simp [hflat], ?_, ?_, by simp⟩
      · rw [fullCheck, if_neg hnext]
        exact .cons (segmentOfRun_of_fitsAll hself (hfits (by simp))) hseg
      · cases runs with
        | nil => exact .singleton _
        | cons r runs =>
          have hr : r.head? = some (t, y') := hhead (t, y') (by simp) r (by simp)
          refine List.IsChain.cons_cons (fun q hq => ?_) hchain
          rw [hr, Option.mem_some_iff] at hq
          rw [← hq]
          exact hnext

end Segmentation

/-- Read in exact arithmetic, with keys whose offsets strictly increase and a key at offset zero
from itself, the segmentation hands out exactly the segments of the full check, for any budgets
above the number of samples. So every sample lies within the bound of its segment's line, and no
segment but the last can take the sample after it. -/
theorem linearize_refines_full_check (eps : ℚ) (heps : 0 ≤ eps)
    (hself : ∀ s : κ, offsetFrom s s = 0) (samples : List (κ × ℚ))
    (hinc : OffsetsIncrease (samples.map Prod.fst)) (fuel fuel' : ℕ)
    (hfuel : samples.length < fuel) (hfuel' : samples.length < fuel') :
    ((Linearize.feed eps fuel Feed.ofList).takeAll fuel' [] (Linearize.initial, samples)).1 =
        .ok (fullCheck eps [] samples) ∧
      ∃ runs : List (List (κ × ℚ)), runs.flatten = samples ∧
        List.Forall₂ (SegmentOfRun eps) (fullCheck eps [] samples) runs ∧
        runs.IsChain (fun r r' => ∀ p ∈ r'.head?, ¬FitsAll eps (pointsOf (r ++ [p]))) := by
  have hlen : (fullCheck eps [] samples).length < fuel' := by
    have := length_fullCheck_le eps [] samples
    simp only [List.length_nil, Nat.zero_min, Nat.add_zero] at this
    omega
  refine ⟨?_, ?_⟩
  · simpa [Linearize.initial] using
      takeAll_fullCheck eps fuel fuel' [] none [] samples hfuel hlen .empty (by simpa using hinc)
  · obtain ⟨runs, hflat, hseg, hchain, -⟩ := fullCheck_runs heps hself [] samples (by simp)
    exact ⟨runs, by simpa using hflat, hseg, hchain⟩

end Keys

/-! ### Keys read as exact numbers -/

/-- Exact keys: numbers, measured by their difference. -/
instance exactAxis : Axis ℚ ℚ := ⟨fun a b => a - b⟩

@[simp] theorem offsetFrom_exact (a b : ℚ) : offsetFrom a b = a - b := rfl

/-- Strictly increasing exact keys have strictly increasing offsets. -/
theorem Segmentation.offsetsIncrease_of_pairwise :
    ∀ {ks : List ℚ}, ks.Pairwise (· < ·) → OffsetsIncrease ks
  | [], _ => trivial
  | s :: rest, h => by
    obtain ⟨hs, hrest⟩ := List.pairwise_cons.1 h
    refine ⟨fun t ht => by simpa using hs t ht, hrest.imp fun htt' => ?_,
      offsetsIncrease_of_pairwise hrest⟩
    simpa using htt'

theorem linearize_refines_full_check_exact :
    0 ≤ (1 / 100 : ℚ) ∧ (∀ s : ℚ, offsetFrom s s = 0) ∧
      OffsetsIncrease (([(0, 0), (1, 2), (2, 4), (3, 0)] : List (ℚ × ℚ)).map Prod.fst) ∧
      ((Linearize.feed (1 / 100 : ℚ) 5 Feed.ofList).takeAll 5 []
          (Linearize.initial, ([(0, 0), (1, 2), (2, 4), (3, 0)] : List (ℚ × ℚ)))).1 =
          .ok (fullCheck (1 / 100) [] [(0, 0), (1, 2), (2, 4), (3, 0)]) ∧
        ∃ runs : List (List (ℚ × ℚ)), runs.flatten = [(0, 0), (1, 2), (2, 4), (3, 0)] ∧
          List.Forall₂ (SegmentOfRun (1 / 100)) (fullCheck (1 / 100) [] [(0, 0), (1, 2), (2, 4), (3, 0)]) runs ∧
          runs.IsChain (fun r r' => ∀ p ∈ r'.head?, ¬FitsAll (1 / 100) (pointsOf (r ++ [p]))) := by
  have hinc : OffsetsIncrease (([(0, 0), (1, 2), (2, 4), (3, 0)] : List (ℚ × ℚ)).map Prod.fst) :=
    offsetsIncrease_of_pairwise (by decide)
  exact ⟨by norm_num, fun s => sub_self s, hinc,
    linearize_refines_full_check (1 / 100) (by norm_num) (fun s => sub_self s) _ hinc 5 5
      (by decide) (by decide)⟩

/-- With a repeated key the hull chains lose a point. Over four samples at one key with values
0, 10, 5, 0 and `ε = 5`, the segmentation takes all four into one flat segment at `15/4`, which
misses the value 10 by `25/4`; the full check ends the run after three samples, at their mean 5. -/
theorem repeated_key_escapes_hull :
    (((Linearize.feed (5 : ℚ) 5 Feed.ofList).takeAll 5 []
        (Linearize.initial, ([(0, 0), (0, 10), (0, 5), (0, 0)] : List (ℚ × ℚ)))).1.toOption.map
        (·.map fun g => (g.start, g.intercept, g.slope, g.len))) = some [(0, 15 / 4, 0, 4)] ∧
      (fullCheck (5 : ℚ) [] ([(0, 0), (0, 10), (0, 5), (0, 0)] : List (ℚ × ℚ))).map
        (fun g => (g.start, g.intercept, g.slope, g.len)) = [(0, 5, 0, 3), (0, 0, 0, 1)] := by
  constructor <;> decide +kernel

end LazySeq
