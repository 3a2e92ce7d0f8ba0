import LazySeq.Proofs.Series.Segmentation
import LazySeq.Proofs.Binary64.Order

/-!
# Segments partition their samples

Whatever the arithmetic and whatever the fit decides, `linearize` cuts its samples into
consecutive runs, one per segment: a segment starts at the key of its run's first sample and
counts the run's samples. A run in progress is never lost and never shared: the sample that
breaks a run starts the next one, and the end of the samples finishes the last. `Linearize.Holds`
says what the state keeps of the run in progress (its first key and its count), `advance_covers`
that one call of `advance` hands out the segments of whole runs and keeps the rest in progress,
and `takeAll_covers` that draining the segmentation covers every sample.

`Covers` is the relation of a segment to its run. From it follow the three facts a reader of the
segments uses: every segment counts at least one sample, the counts add up to the number of
samples, and segment `j` starts at the key of the sample after the first `j` segments' samples.

A segmentation is built only for an `epsilon` that is a finite number not below zero: a zero of
either sign, or a positive finite double (`make_eq_error_iff`).

**Main statement.** `linearize_partitions`: over doubles or any other arithmetic, for samples in
any key order, the segments of every list of samples partition it in order, no samples give no
segment, and a segmentation is refused exactly for an `epsilon` that is negative or not finite.
-/

namespace LazySeq

variable {κ R : Type}

/-! ## A segment and its run -/

/-- `g` is the segment of `run`: it starts at the run's first key and counts its samples. -/
def Covers (g : Segment κ R) (run : List (κ × R)) : Prop :=
  ∃ y rest, run = (g.start, y) :: rest ∧ g.len = run.length

theorem Covers.one_le_len {g : Segment κ R} {run : List (κ × R)} (h : Covers g run) :
    1 ≤ g.len := by
  obtain ⟨y, rest, rfl, hlen⟩ := h
  simp [hlen]

theorem Covers.length_pos {g : Segment κ R} {run : List (κ × R)} (h : Covers g run) :
    0 < run.length := by
  obtain ⟨y, rest, rfl, -⟩ := h
  simp

theorem one_le_len_of_covers : ∀ {segs : List (Segment κ R)} {runs : List (List (κ × R))},
    List.Forall₂ Covers segs runs → ∀ g ∈ segs, 1 ≤ g.len
  | [], [], .nil => by simp
  | _ :: _, _ :: _, .cons hg hrest => by
    intro g' hg'
    rcases List.mem_cons.1 hg' with rfl | hmem
    · exact hg.one_le_len
    · exact one_le_len_of_covers hrest g' hmem

/-- The counts of segments that cover runs add up to the samples of the runs. -/
theorem sum_len_of_covers : ∀ {segs : List (Segment κ R)} {runs : List (List (κ × R))},
    List.Forall₂ Covers segs runs → (segs.map (·.len)).sum = runs.flatten.length
  | [], [], .nil => rfl
  | _ :: _, _ :: _, .cons ⟨_, _, _, hlen⟩ hrest => by
    simp [hlen, sum_len_of_covers hrest]

/-- Segment `j` starts at the key of the sample after the samples of the first `j` segments. -/
theorem start_of_covers : ∀ {segs : List (Segment κ R)} {runs : List (List (κ × R))},
    List.Forall₂ Covers segs runs → ∀ j (hj : j < segs.length),
      (runs.flatten[((segs.take j).map (·.len)).sum]?).map Prod.fst = some segs[j].start
  | [], [], .nil, _, hj => absurd hj (Nat.not_lt_zero _)
  | g :: segs, run :: runs, .cons hg hrest, j, hj => by
    obtain ⟨y, rest, hrun, hlen⟩ := hg
    cases j with
    | zero => simp [hrun]
    | succ j =>
      -- the first segment's samples come first; the index moves past them
      have hj' : j < segs.length := by simpa using hj
      have hidx : (((g :: segs).take (j + 1)).map (·.len)).sum =
          run.length + ((segs.take j).map (·.len)).sum := by simp [hlen]
      rw [hidx, List.flatten_cons, List.getElem?_append_right (Nat.le_add_right _ _),
        Nat.add_sub_cancel_left]
      simpa using start_of_covers hrest j hj'

/-! ## What the state keeps of the run in progress -/

/-- The run in progress: none before a first sample or after the last segment, else its first
key with a fit that has counted every sample of the run. -/
inductive Linearize.Holds : Option (κ × Fit R) → List (κ × R) → Prop
  | empty : Linearize.Holds none []
  | running {s : κ} {y : R} {rest : List (κ × R)} {f : Fit R} :
      f.len = rest.length + 1 → Linearize.Holds (some (s, f)) ((s, y) :: rest)

section Arith

variable [FitArith R]

theorem Fit.len_single (y : R) : (Fit.single y).len = 1 := rfl

/-- A finished run counts its samples and starts at its first key, whatever its line. -/
theorem Fit.covers_finish {f : Fit R} {s : κ} {y : R} {rest : List (κ × R)}
    (hlen : f.len = rest.length + 1) : Covers (f.finish s) ((s, y) :: rest) := by
  exact ⟨y, rest, by simp [Fit.finish], by simpa [Fit.finish] using hlen⟩

/-- A point the fit takes is counted once more. -/
theorem Fit.len_of_extend {f f' : Fit R} {x y eps : R} (h : f.extend x y eps = some f') :
    f'.len = f.len + 1 := by
  simp only [Fit.extend] at h
  split at h
  · cases h
    rfl
  · cases h

theorem Linearize.Holds.single (t : κ) (y : R) : Linearize.Holds (some (t, Fit.single y)) [(t, y)] :=
  .running (Fit.len_single y)

end Arith

/-! ## Reading the samples -/

section Reading

variable [FitArith R] [Axis κ R] (eps : R)

/-- One call of `advance` over a list of samples, from a state that holds the run `run`, hands
out the segment of a whole run, if any, and leaves a state that holds the next run in
progress: the run before, the samples read and the rest are the run handed out, the new run and
the rest, in order. -/
theorem advance_covers : ∀ (samples : List (κ × R)) (fuel : ℕ) (current : Option (κ × Fit R))
    (run : List (κ × R)), samples.length < fuel → Linearize.Holds current run →
    ∃ r current' rest run' done, Linearize.advance eps Feed.ofList fuel current samples =
        (.ok r, current', rest) ∧ Linearize.Holds current' run' ∧
      List.Forall₂ Covers r.toList done ∧ run ++ samples = done.flatten ++ run' ++ rest ∧
      rest.length ≤ samples.length ∧ (r = none → run' = [] ∧ rest = [])
  | [], fuel + 1, _, _, _, hold => by
    -- the end of the samples finishes the run in progress
    cases hold with
    | empty => exact ⟨none, none, [], [], [], rfl, .empty, .nil, rfl, le_refl _, fun _ => ⟨rfl, rfl⟩⟩
    | @running s y rest f hlen =>
      exact ⟨some (f.finish s), none, [], [], [(s, y) :: rest], by simp [Linearize.advance], .empty,
        .cons (Fit.covers_finish hlen) .nil, by simp, le_refl _, by simp⟩
  | (t, y') :: rest, fuel + 1, _, _, hfuel, hold => by
    have hrest : rest.length < fuel := by simpa using hfuel
    cases hold with
    | empty =>
      -- the sample starts a run
      obtain ⟨r, current', rest', run', done, hadv, hold', hcov, hsplit, hlen, hend⟩ :=
        advance_covers rest fuel (some (t, Fit.single y')) [(t, y')] hrest (.single t y')
      refine ⟨r, current', rest', run', done, ?_, hold', hcov, by simpa using hsplit, ?_, hend⟩
      · simpa [Linearize.advance] using hadv
      · simp only [List.length_cons]; omega
    | @running s y run f hlen =>
      cases hext : f.extend (offsetFrom t s) y' eps with
      | some f' =>
        -- the run takes the sample
        obtain ⟨r, current', rest', run', done, hadv, hold', hcov, hsplit, hlen', hend⟩ :=
          advance_covers rest fuel (some (s, f')) ((s, y) :: run ++ [(t, y')]) hrest
            (.running (by simp [Fit.len_of_extend hext, hlen]))
        refine ⟨r, current', rest', run', done, ?_, hold', hcov, by simpa using hsplit, ?_, hend⟩
        · simpa [Linearize.advance, hext] using hadv
        · simp only [List.length_cons]; omega
      | none =>
        -- the sample breaks the run and starts the next one
        exact ⟨some (f.finish s), some (t, Fit.single y'), rest, [(t, y')], [(s, y) :: run],
          by simp [Linearize.advance, hext], .single t y', .cons (Fit.covers_finish hlen) .nil,
          by simp, by simp, by simp⟩

/-- Taking every segment, with nothing kept ahead and a run `run` in progress, hands out segments
that cover the run and the samples after it. -/
theorem takeAll_covers (fuel : ℕ) : ∀ (fuel' : ℕ) (acc : List (Segment κ R))
    (current : Option (κ × Fit R)) (run samples : List (κ × R)),
    samples.length < fuel → (run ++ samples).length < fuel' → Linearize.Holds current run →
    ∃ segs runs, ((Linearize.feed eps fuel Feed.ofList).takeAll fuel' acc
        (⟨current, none⟩, samples)).1 = .ok (acc.reverse ++ segs) ∧
      List.Forall₂ Covers segs runs ∧ runs.flatten = run ++ samples
  | fuel' + 1, acc, current, run, samples, hfuel, hfuel', hold => by
    obtain ⟨r, current', rest, run', done, hadv, hold', hcov, hsplit, hrest, hend⟩ :=
      advance_covers eps samples fuel current run hfuel hold
    rw [Feed.takeAll, Linearize.pull_feed hadv]
    cases r with
    | none =>
      obtain ⟨rfl, rfl⟩ := hend rfl
      cases hcov
      exact ⟨[], [], by simp, .nil, by simpa using hsplit.symm⟩
    | some g =>
      cases hcov with
      | @cons _ run₁ _ _ hg hnil =>
      cases hnil
      -- the segment handed out covers a run of at least one sample, so the budget suffices
      have hsplit' : run ++ samples = run₁ ++ (run' ++ rest) := by simpa using hsplit
      have hbudget : (run' ++ rest).length < fuel' := by
        have hpos := hg.length_pos
        rw [hsplit', List.length_append] at hfuel'
        omega
      obtain ⟨segs, runs, htake, hcovs, hflat⟩ :=
        takeAll_covers fuel fuel' (g :: acc) current' run' rest (by omega) hbudget hold'
      refine ⟨g :: segs, run₁ :: runs, by simpa using htake, .cons hg hcovs, ?_⟩
      rw [List.flatten_cons, hflat, hsplit']

end Reading

/-! ## The refusal of an epsilon -/

namespace Binary64

open Float.Model

/-- A double that stands for a finite number not below zero: a zero of either sign, or a
positive finite value. -/
def FiniteNonNeg (x : Float) : Prop :=
  match x.toModel.unpack with
  | .zero _ => True
  | .finite .positive _ _ _ => True
  | _ => False

theorem unpack_zero : (0 : Float).toModel.unpack = .zero .positive := rfl

/-- Below zero, or not finite, exactly when not a finite number at or above zero. -/
theorem not_finite_or_neg_iff (x : Float) :
    (!x.isFinite || x < 0) = true ↔ ¬FiniteNonNeg x := by
  have hlt : x < 0 ↔ x.toModel.unpack.lt (0 : Float).toModel.unpack = true := decide_eq_true_iff
  simp only [Bool.or_eq_true, Bool.not_eq_eq_eq_not, Bool.not_true, decide_eq_true_eq, hlt,
    unpack_zero, FiniteNonNeg]
  unfold Float.isFinite Float.Model.isFinite
  rcases x.toModel.unpack with ⟨_ | _⟩ | _ | s | ⟨_ | _, m, e, hm⟩ <;>
    simp [UnpackedFloat.isFinite, UnpackedFloat.lt, UnpackedFloat.compare]

end Binary64

open Binary64 in
/-- A segmentation is refused, with its reason, exactly for an `epsilon` that is not a finite
number at or above zero, and is otherwise built with nothing read. -/
theorem Linearize.make_eq_error_iff (eps : Float) :
    ((∃ e, (Linearize.make eps : Except SeqError (Linearize κ Float)) = .error e) ↔
      ¬FiniteNonNeg eps) ∧
    (¬FiniteNonNeg eps → (Linearize.make eps : Except SeqError (Linearize κ Float)) =
      .error (.invalidArgument
        ("linearize epsilon must be finite and non-negative, got " ++ toPlainText eps))) ∧
    (FiniteNonNeg eps → (Linearize.make eps : Except SeqError (Linearize κ Float)) = .ok .initial) := by
  have hcheck := not_finite_or_neg_iff eps
  by_cases hok : FiniteNonNeg eps
  · have hpass : (!eps.isFinite || eps < 0) = false := by simpa [hok] using hcheck
    simp [Linearize.make, hpass, hok]
  · have hfail : (!eps.isFinite || eps < 0) = true := hcheck.2 hok
    simp [Linearize.make, hfail, hok]

/-! ## Segments partition their samples -/

/-- **The segments partition the samples.** With any arithmetic (doubles included) and any
epsilon, for every list of samples in any key order and any budgets above its length, taking
every segment succeeds; each segment counts at least one sample, the counts add up to the number
of samples, and segment `j` starts at the key of the sample whose index is the count of the first
`j` segments. No samples give no segment. Over doubles, a segmentation is refused exactly for an
`epsilon` that is negative or not finite: it is refused when it is not a zero or a positive finite
double, and built otherwise. -/
theorem linearize_partitions [FitArith R] [Axis κ R] (eps : R) (samples : List (κ × R))
    (fuel fuel' : ℕ) (hfuel : samples.length < fuel) (hfuel' : samples.length < fuel') :
    (∃ segs, ((Linearize.feed eps fuel Feed.ofList).takeAll fuel' [] (Linearize.initial, samples)).1 =
        .ok segs ∧
      (∀ g ∈ segs, 1 ≤ g.len) ∧ (segs.map (·.len)).sum = samples.length ∧
      (∀ j (hj : j < segs.length),
        (samples[((segs.take j).map (·.len)).sum]?).map Prod.fst = some segs[j].start) ∧
      (samples = [] → segs = [])) ∧
    ∀ e : Float, (∃ err, (Linearize.make e : Except SeqError (Linearize κ Float)) = .error err) ↔
      ¬Binary64.FiniteNonNeg e := by
  obtain ⟨segs, runs, htake, hcovs, hflat⟩ :=
    takeAll_covers eps fuel fuel' [] none [] samples hfuel (by simpa using hfuel') .empty
  rw [List.nil_append] at hflat
  subst hflat
  refine ⟨⟨segs, by simpa [Linearize.initial] using htake, one_le_len_of_covers hcovs,
    sum_len_of_covers hcovs, start_of_covers hcovs, fun hnil => ?_⟩,
    fun e => (Linearize.make_eq_error_iff e).1⟩
  -- no samples: every run is empty, and a covered run is not
  cases hcovs with
  | nil => rfl
  | cons hg _ =>
    obtain ⟨_, _, hrun, _⟩ := hg
    simp [hrun] at hnil

/-- Four double samples at keys out of order, at epsilon `1/10`. -/
theorem linearize_partitions_doubles :
    [((0 : Float), (0 : Float)), (2, 0), (1, 50), (3, 1)].length < 5 ∧
      (∃ segs, ((Linearize.feed (0.1 : Float) 5 Feed.ofList).takeAll 5 []
          (Linearize.initial, [((0 : Float), (0 : Float)), (2, 0), (1, 50), (3, 1)])).1 = .ok segs ∧
        (∀ g ∈ segs, 1 ≤ g.len) ∧
        (segs.map (·.len)).sum = [((0 : Float), (0 : Float)), (2, 0), (1, 50), (3, 1)].length ∧
        (∀ j (hj : j < segs.length),
          ([((0 : Float), (0 : Float)), (2, 0), (1, 50), (3, 1)][((segs.take j).map (·.len)).sum]?).map
            Prod.fst = some segs[j].start) ∧
        ([((0 : Float), (0 : Float)), (2, 0), (1, 50), (3, 1)] = [] → segs = [])) ∧
      ∀ e : Float, (∃ err, (Linearize.make e : Except SeqError (Linearize Float Float)) = .error err) ↔
        ¬Binary64.FiniteNonNeg e :=
  ⟨by decide, linearize_partitions (0.1 : Float) _ 5 5 (by decide) (by decide)⟩

end LazySeq
