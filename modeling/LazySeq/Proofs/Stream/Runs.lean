import LazySeq.Proofs.Stream.Yields
import LazySeq.Series.Basic

/-!
# Runs

Under a comparison `same`, a *run* of a list is an element followed by the longest stretch of
elements after it that are `same` as it, and a list splits into its runs one after the other
(`runs`). The comparison need not be reflexive, symmetric or transitive (weak equality of
doubles is none of these), so every element is compared with the first of its run only.

The three run adapters read the same runs: `GroupBy` hands out each run, `KeepFirst` its first
element and `KeepLast` its last, each comparing with the first element of the run. Over an
input that yields a list, `GroupBy` yields the runs of the list (`GroupBy.yields_runs`),
`KeepFirst` yields `keepFirstBy same none` of it (`KeepFirst.yields_keepFirstBy`) and `KeepLast`
yields `keepLastBy same` of it (`KeepLast.yields_keepLastBy`); on lists these are the first and
the last elements of the runs (`keepFirstBy_none_eq_heads`, `keepLastBy_eq_lasts`).

**Main statement.** `runs_of_weak_keys`: for every input that yields a finite list, every key
function and every tolerance, `GroupBy` hands out non-empty groups that flatten back to the list,
every element after the first of a group has a key weakly equal to that of the first, the first
elements of consecutive groups have keys that are not, and `KeepFirst` and `KeepLast` hand out
the first and the last element of every group.
-/

namespace LazySeq

variable {σ α κ : Type}

/-! ## Runs of a list -/

section Runs

variable (same : α → α → Bool)

/-- The runs of a list: each is an element and the longest stretch after it of elements `same`
as it. -/
def runs : List α → List (List α)
  | [] => []
  | x :: xs => (x :: xs.takeWhile (same · x)) :: runs (xs.dropWhile (same · x))
termination_by xs => xs.length
decreasing_by exact Nat.lt_succ_of_le (List.length_dropWhile_le _ _)

@[simp] theorem runs_nil : runs same [] = [] := by
  rw [runs]

theorem runs_cons (x : α) (xs : List α) :
    runs same (x :: xs) = (x :: xs.takeWhile (same · x)) :: runs same (xs.dropWhile (same · x)) := by
  rw [runs]

example : runs (fun a b => a == b) [1, 1, 2, 3, 3, 1] = [[1, 1], [2], [3, 3], [1]] := by
  simp [runs_cons]

/-- A run begun with elements `same` as its first goes on into the rest. -/
theorem runs_cons_append {x : α} {more : List α} (h : ∀ y ∈ more, same y x = true)
    (rest : List α) :
    runs same (x :: (more ++ rest)) =
      (x :: (more ++ rest.takeWhile (same · x))) :: runs same (rest.dropWhile (same · x)) := by
  rw [runs_cons, List.takeWhile_append_of_pos h, List.dropWhile_append_of_pos h]

@[simp] theorem isEmpty_runs (xs : List α) : (runs same xs).isEmpty = xs.isEmpty := by
  cases xs with
  | nil => simp
  | cons x xs => simp [runs_cons]

/-- There are no more runs than elements. -/
theorem length_runs_le (xs : List α) : (runs same xs).length ≤ xs.length := by
  induction xs using runs.induct same with
  | case1 => simp
  | case2 x xs ih =>
    rw [runs_cons, List.length_cons, List.length_cons]
    exact Nat.succ_le_succ (ih.trans (List.length_dropWhile_le _ _))

/-- The runs flatten back to the list. -/
theorem flatten_runs (xs : List α) : (runs same xs).flatten = xs := by
  induction xs using runs.induct same with
  | case1 => simp
  | case2 x xs ih =>
    rw [runs_cons, List.flatten_cons, ih, List.cons_append, List.takeWhile_append_dropWhile]

/-- Every run is an element followed by elements `same` as it. -/
theorem exists_cons_of_mem_runs {g : List α} {xs : List α} (hg : g ∈ runs same xs) :
    ∃ a rest, g = a :: rest ∧ ∀ y ∈ rest, same y a = true := by
  induction xs using runs.induct same with
  | case1 => simp at hg
  | case2 x xs ih =>
    rw [runs_cons] at hg
    rcases List.mem_cons.1 hg with rfl | hg
    · refine ⟨x, _, rfl, fun y hy => ?_⟩
      simpa using List.mem_takeWhile_imp hy
    · exact ih hg

/-- The first elements of the runs begin with the first element of the list. -/
theorem head?_heads_runs (xs : List α) :
    ((runs same xs).filterMap List.head?).head? = xs.head? := by
  cases xs with
  | nil => simp
  | cons x xs => simp [runs_cons]

/-- The first element of each run is not `same` as the first element of the run before. -/
theorem isChain_heads_runs (xs : List α) :
    ((runs same xs).filterMap List.head?).IsChain fun a b => same b a = false := by
  induction xs using runs.induct same with
  | case1 => simp
  | case2 x xs ih =>
    rw [runs_cons, List.filterMap_cons_some (by rfl), List.isChain_cons, head?_heads_runs]
    refine ⟨fun b hb => ?_, ih⟩
    -- the next run starts where the stretch `same` as `x` stopped
    obtain ⟨rest, hrest⟩ : ∃ rest, xs.dropWhile (same · x) = b :: rest :=
      ⟨(xs.dropWhile (same · x)).tail, List.eq_cons_of_mem_head? hb⟩
    have := List.head_dropWhile_not (same · x) (l := xs) (by simp [hrest])
    simpa [hrest] using this

/-! ### The first and the last element of each run -/

/-- Skipping the elements `same` as `a` leaves those after the stretch `same` as `a`. -/
theorem keepFirstBy_some (a : α) :
    ∀ xs : List α, keepFirstBy same (some a) xs = keepFirstBy same none (xs.dropWhile (same · a))
  | [] => rfl
  | x :: xs => by
    rw [List.dropWhile_cons]
    by_cases hx : same x a = true
    · simp only [keepFirstBy, Option.map_some, Option.getD_some, hx, if_true]
      exact keepFirstBy_some a xs
    · simp [keepFirstBy, hx]

/-- `keepFirstBy` keeps the first element of every run. -/
theorem keepFirstBy_none_eq_heads (xs : List α) :
    keepFirstBy same none xs = (runs same xs).filterMap List.head? := by
  induction xs using runs.induct same with
  | case1 => simp [keepFirstBy]
  | case2 x xs ih =>
    rw [runs_cons, List.filterMap_cons_some (by rfl), ← ih, ← keepFirstBy_some]
    simp [keepFirstBy]

/-- The last element of a run `same` as `a` so far, then the runs of what follows. -/
theorem keepLastBy_go_eq (a : α) :
    ∀ (p : α) (xs : List α), keepLastBy.go same a p xs =
      (p :: xs.takeWhile (same · a)).getLast (List.cons_ne_nil _ _) ::
        keepLastBy same (xs.dropWhile (same · a))
  | _, [] => rfl
  | p, x :: xs => by
    by_cases hx : same x a = true
    · -- `x` goes on with the run and is its last element so far
      rw [keepLastBy.go, if_pos hx, keepLastBy_go_eq a x xs, List.takeWhile_cons, if_pos hx,
        List.dropWhile_cons, if_pos hx, List.getLast_cons_cons]
    · rw [keepLastBy.go, if_neg hx, List.takeWhile_cons, if_neg hx, List.dropWhile_cons, if_neg hx]
      rfl

theorem keepLastBy_go_ne_nil (a p : α) (xs : List α) : keepLastBy.go same a p xs ≠ [] := by
  rw [keepLastBy_go_eq]
  exact List.cons_ne_nil _ _

/-- `keepLastBy` keeps the last element of every run. -/
theorem keepLastBy_eq_lasts (xs : List α) :
    keepLastBy same xs = (runs same xs).filterMap List.getLast? := by
  induction xs using runs.induct same with
  | case1 => simp [keepLastBy]
  | case2 x xs ih =>
    rw [runs_cons, List.filterMap_cons_some (List.getLast?_eq_some_getLast (List.cons_ne_nil _ _)),
      ← ih]
    exact keepLastBy_go_eq same x x xs

end Runs

/-! ## The run adapters over inputs that yield a list -/

variable (same : α → α → Bool) {input : Feed σ α} {R : σ → List α → Prop}

namespace GroupBy

@[simp] theorem feed_hasNext (fuel : Nat) (p : Array α × σ) :
    (feed same fuel input).hasNext p = ((hasNext input p.1 p.2).1, p.1, (hasNext input p.1 p.2).2) :=
  rfl

@[simp] theorem feed_tryNext (fuel : Nat) (p : Array α × σ) :
    (feed same fuel input).tryNext p =
      ((tryNext same input fuel p.1 p.2).1, (tryNext same input fuel p.1 p.2).2) :=
  rfl

theorem tryNext_of_head {first : α} {run : Array α} (h : run[0]? = some first) (fuel : Nat)
    (s : σ) : tryNext same input fuel run s = extend same input first fuel run s := by
  simp [tryNext, h]

theorem tryNext_empty_of_pull {x : α} {s s₁ : σ} (h : input.pull s = (.ok (some x), s₁))
    (fuel : Nat) : tryNext same input fuel #[] s = extend same input x fuel #[x] s₁ := by
  simp [tryNext, h]

/-- Extending a run over an input that yields `rest` adds the longest stretch of `rest` that is
`same` as `first`, and keeps the element that ends it, if any, as the next run. -/
theorem extend_eq (hin : input.Yields R) (first : α) :
    ∀ {rest : List α} {fuel : Nat} (run : Array α) {s : σ}, R s rest → rest.length < fuel →
      ∃ s', extend same input first fuel run s =
          (.ok (run.toList ++ rest.takeWhile (same · first)),
            (rest.dropWhile (same · first)).head?.toList.toArray, s') ∧
        R s' (rest.dropWhile (same · first)).tail
  | _, 0, _, _, _, hn => absurd hn (Nat.not_lt_zero _)
  | [], fuel + 1, run, s, hs, _ => by
    obtain ⟨s', hp, hs'⟩ := hin.pull hs
    exact ⟨s', by simp [extend, hp], hs'⟩
  | x :: rest, fuel + 1, run, s, hs, hn => by
    obtain ⟨s₁, hp, hs₁⟩ := hin.pull hs
    simp only [List.head?_cons, List.tail_cons] at hp hs₁
    by_cases hx : same x first = true
    · -- `x` joins the run
      obtain ⟨s', he, hs'⟩ := extend_eq hin first (run.push x) hs₁ (by simpa using hn)
      refine ⟨s', ?_, by simpa [List.dropWhile_cons, hx] using hs'⟩
      rw [extend, hp]
      simp [hx, he]
    · exact ⟨s₁, by simp [extend, hp, hx], by simpa [List.dropWhile_cons, hx] using hs₁⟩

/-- A run state over an input that yields `rest`: the run begun holds elements `same` as its
first, and the runs to come are those of the run begun followed by `rest`. -/
def Holds (same : α → α → Bool) (R : σ → List α → Prop) (fuel : Nat) (p : Array α × σ)
    (gs : List (List α)) : Prop :=
  ∃ rest, R p.2 rest ∧ rest.length < fuel ∧
    (∀ a ∈ p.1.toList.head?, ∀ y ∈ p.1.toList.tail, same y a = true) ∧
    gs = runs same (p.1.toList ++ rest)

/-- A run handed out by `extend` leaves a state that holds the runs after it. -/
theorem holds_extend (hin : input.Yields R) {fuel : Nat} {first : α} (more : List α)
    {rest : List α} {s : σ} (hs : R s rest) (hn : rest.length < fuel) :
    ∃ p', extend same input first fuel (first :: more).toArray s =
        (.ok (first :: (more ++ rest.takeWhile (same · first))), p'.1, p'.2) ∧
      Holds same R fuel p' (runs same (rest.dropWhile (same · first))) := by
  obtain ⟨s', he, hs'⟩ := extend_eq same hin first (first :: more).toArray hs hn
  have hlen : (rest.dropWhile (same · first)).tail.length < fuel := by
    have := List.length_dropWhile_le (same · first) rest
    rw [List.length_tail]
    omega
  refine ⟨((rest.dropWhile (same · first)).head?.toList.toArray, s'), by simp [he],
    (rest.dropWhile (same · first)).tail, hs', hlen, ?_, ?_⟩
  · cases (rest.dropWhile (same · first)).head? <;> simp
  · cases rest.dropWhile (same · first) <;> simp

/-- **Grouping yields the runs** of what its input yields, within a budget per call beyond the
input's length. -/
theorem yields_runs (hin : input.Yields R) (fuel : Nat) :
    (feed same fuel input).Yields (Holds same R fuel) where
  hasNext := by
    rintro ⟨run, s⟩ _ ⟨rest, hs, hn, hrun, rfl⟩
    cases hr : run.toList with
    | nil =>
      obtain rfl : run = #[] := Array.toList_eq_nil_iff.1 hr
      obtain ⟨s', hh, hs'⟩ := hin.hasNext hs
      exact ⟨(#[], s'), by simp [hasNext, hh], rest, hs', hn, by simp, by simp⟩
    | cons a more =>
      obtain rfl : run = (a :: more).toArray := by rw [← hr, Array.toArray_toList]
      exact ⟨((a :: more).toArray, s), by simp [hasNext, runs_cons],
        rest, hs, hn, by simpa using hrun, by simp⟩
  tryNext := by
    rintro ⟨run, s⟩ g gs ⟨rest, hs, hn, hrun, hgs⟩
    cases hr : run.toList with
    | nil =>
      obtain rfl : run = #[] := Array.toList_eq_nil_iff.1 hr
      cases rest with
      | nil => simp at hgs
      | cons x rest =>
        -- the first element of the input begins the run
        obtain ⟨s₁, hp, hs₁⟩ := hin.pull hs
        simp only [List.head?_cons, List.tail_cons] at hp hs₁
        obtain ⟨p', he, hp'⟩ := holds_extend same hin [] hs₁ (Nat.lt_of_succ_lt (by simpa using hn))
        simp only [List.nil_append, runs_cons, List.cons.injEq] at hgs
        refine ⟨p', ?_, hgs.2 ▸ hp'⟩
        simp only [feed_tryNext]
        rw [tryNext_empty_of_pull same hp, he, hgs.1, List.nil_append]
    | cons a more =>
      obtain rfl : run = (a :: more).toArray := by rw [← hr, Array.toArray_toList]
      have hmore : ∀ y ∈ more, same y a = true := by simpa using hrun
      obtain ⟨p', he, hp'⟩ := holds_extend same hin more hs hn
      rw [List.toList_toArray, List.cons_append, runs_cons_append same hmore, List.cons.injEq] at hgs
      refine ⟨p', ?_, hgs.2 ▸ hp'⟩
      simp only [feed_tryNext]
      rw [tryNext_of_head same (by simp : (a :: more).toArray[0]? = some a), he, hgs.1]

end GroupBy

namespace KeepFirst

@[simp] theorem feed_hasNext (fuel : Nat) (p : KeepFirst α × σ) :
    (feed same fuel input).hasNext p =
      ((hasNext same input fuel p.1 p.2).1, (hasNext same input fuel p.1 p.2).2) :=
  rfl

@[simp] theorem feed_tryNext (fuel : Nat) (p : KeepFirst α × σ) :
    (feed same fuel input).tryNext p =
      ((tryNext same input fuel p.1 p.2).1, (tryNext same input fuel p.1 p.2).2) :=
  rfl

/-- The rest of an input once the elements `same` as the last one handed out are skipped. -/
def unskipped (same : α → α → Bool) : Option α → List α → List α
  | some l, rest => rest.dropWhile (same · l)
  | none, rest => rest

theorem keepFirstBy_eq_unskipped (last : Option α) (rest : List α) :
    keepFirstBy same last rest = keepFirstBy same none (unskipped same last rest) := by
  cases last with
  | none => rfl
  | some l => exact keepFirstBy_some same l rest

/-- With an element read ahead, `hasNext` answers at once. -/
@[simp] theorem hasNext_pending (a : α) (failure : Option SeqError) (last : Option α) (fuel : Nat)
    (s : σ) : hasNext same input fuel ⟨some a, failure, last⟩ s = (.ok true, ⟨some a, failure, last⟩, s) := by
  cases fuel <;> simp [hasNext]

/-- Looking ahead with nothing read skips the elements `same` as the last one handed out and
keeps the first other one. -/
theorem hasNext_ahead (hin : input.Yields R) (last : Option α) :
    ∀ {rest : List α} {fuel : Nat} {s : σ}, R s rest → rest.length < fuel →
      ∃ s', hasNext same input fuel ⟨none, none, last⟩ s =
          (.ok !(unskipped same last rest).isEmpty, ⟨(unskipped same last rest).head?, none, last⟩,
            s') ∧
        R s' (unskipped same last rest).tail
  | _, 0, _, _, hn => absurd hn (Nat.not_lt_zero _)
  | [], fuel + 1, s, hs, _ => by
    obtain ⟨s', hp, hs'⟩ := hin.pull hs
    cases last <;> exact ⟨s', by simp [hasNext, hp, unskipped], by simpa [unskipped] using hs'⟩
  | x :: rest, fuel + 1, s, hs, hn => by
    obtain ⟨s₁, hp, hs₁⟩ := hin.pull hs
    simp only [List.head?_cons, List.tail_cons] at hp hs₁
    cases last with
    | none => exact ⟨s₁, by simp [hasNext, hp, unskipped], by simpa [unskipped] using hs₁⟩
    | some l =>
      by_cases hx : same x l = true
      · -- `x` continues the run of `l` and is skipped
        obtain ⟨s', hh, hs'⟩ := hasNext_ahead hin (some l) hs₁ (by simpa using hn)
        refine ⟨s', ?_, by simpa [unskipped, List.dropWhile_cons, hx] using hs'⟩
        rw [hasNext]
        simpa [hp, hx, unskipped, List.dropWhile_cons] using hh
      · exact ⟨s₁, by simp [hasNext, hp, hx, unskipped],
          by simpa [unskipped, List.dropWhile_cons, hx] using hs₁⟩

/-- A first-of-run reader over an input that yields `rest`: it hands out the element read
ahead, if any, then the elements of `rest` not `same` as the last one handed out. -/
def Holds (same : α → α → Bool) (R : σ → List α → Prop) (fuel : Nat) (p : KeepFirst α × σ)
    (ys : List α) : Prop :=
  ∃ rest, R p.2 rest ∧ rest.length < fuel ∧ p.1.failure = none ∧
    ys = p.1.pending.toList ++ keepFirstBy same (p.1.pending.or p.1.last) rest

/-- The look ahead keeps what is to be handed out. -/
theorem holds_hasNext_ahead (hin : input.Yields R) {fuel : Nat} (last : Option α) {rest : List α}
    {s : σ} (hs : R s rest) (hn : rest.length < fuel) :
    ∃ s', hasNext same input fuel ⟨none, none, last⟩ s =
        (.ok !(keepFirstBy same last rest).isEmpty, ⟨(unskipped same last rest).head?, none, last⟩,
          s') ∧
      Holds same R fuel (⟨(unskipped same last rest).head?, none, last⟩, s')
        (keepFirstBy same last rest) := by
  obtain ⟨s', hh, hs'⟩ := hasNext_ahead same hin last hs hn
  have hlen : (unskipped same last rest).tail.length < fuel := by
    have : (unskipped same last rest).length ≤ rest.length := by
      cases last <;> simp [unskipped, List.length_dropWhile_le]
    rw [List.length_tail]
    omega
  rw [keepFirstBy_eq_unskipped]
  refine ⟨s', ?_, _, hs', hlen, rfl, ?_⟩
  · rw [hh]
    cases unskipped same last rest <;> simp [keepFirstBy]
  · cases unskipped same last rest <;> simp [keepFirstBy]

/-- **The first-of-run reader yields `keepFirstBy`** of what its input yields, within a budget
per call beyond the input's length. -/
theorem yields_keepFirstBy (hin : input.Yields R) (fuel : Nat) :
    (feed same fuel input).Yields (Holds same R fuel) where
  hasNext := by
    rintro ⟨⟨pending, failure, last⟩, s⟩ ys ⟨rest, hs, hn, hf, hys⟩
    obtain rfl : failure = none := hf
    simp only at hys hs
    subst hys
    cases pending with
    | some a => exact ⟨(⟨some a, none, last⟩, s), by simp, rest, hs, hn, rfl, rfl⟩
    | none =>
      obtain ⟨s', hh, hk⟩ := holds_hasNext_ahead same hin last hs hn
      exact ⟨(⟨(unskipped same last rest).head?, none, last⟩, s'), by simp [hh], by simpa using hk⟩
  tryNext := by
    rintro ⟨⟨pending, failure, last⟩, s⟩ a ys ⟨rest, hs, hn, hf, hys⟩
    obtain rfl : failure = none := hf
    simp only at hys hs
    cases pending with
    | some b =>
      simp only [Option.toList_some, Option.some_or, List.singleton_append, List.cons.injEq] at hys
      obtain ⟨rfl, rfl⟩ := hys
      exact ⟨(⟨none, none, some a⟩, s), by simp [tryNext], rest, hs, hn, rfl, by simp⟩
    | none =>
      obtain ⟨s', hh, rest', hs', hn', -, hk⟩ := holds_hasNext_ahead same hin last hs hn
      simp only [Option.toList_none, Option.none_or, List.nil_append] at hys
      -- the element read ahead is the one handed out
      cases hu : unskipped same last rest with
      | nil =>
        rw [keepFirstBy_eq_unskipped, hu] at hys
        simp [keepFirstBy] at hys
      | cons b r =>
        rw [hu] at hh hk
        simp only [List.head?_cons, Option.toList_some, Option.some_or, List.singleton_append] at hk
        rw [← hys, List.cons.injEq] at hk
        obtain ⟨rfl, rfl⟩ := hk
        exact ⟨(⟨none, none, some a⟩, s'), by simp [tryNext, hh, ← hys], rest', hs', hn', rfl, by simp⟩

end KeepFirst

namespace KeepLast

@[simp] theorem feed_hasNext (fuel : Nat) (p : Option α × σ) :
    (feed same fuel input).hasNext p = ((hasNext input p.1 p.2).1, p.1, (hasNext input p.1 p.2).2) :=
  rfl

@[simp] theorem feed_tryNext (fuel : Nat) (p : Option α × σ) :
    (feed same fuel input).tryNext p =
      ((tryNext same input fuel p.1 p.2).1, (tryNext same input fuel p.1 p.2).2) :=
  rfl

/-- Over an input that yields `rest`, the element held is replaced while `rest` goes on with
elements `same` as `anchor`; the last of them is handed out and the element that ends the
stretch, if any, is held. -/
theorem extend_eq (hin : input.Yields R) (anchor : α) :
    ∀ {rest : List α} {fuel : Nat} (held : α) {s : σ}, R s rest → rest.length < fuel →
      ∃ s', extend same input anchor fuel held s =
          (.ok ((held :: rest.takeWhile (same · anchor)).getLast (List.cons_ne_nil _ _)),
            (rest.dropWhile (same · anchor)).head?, s') ∧
        R s' (rest.dropWhile (same · anchor)).tail
  | _, 0, _, _, _, hn => absurd hn (Nat.not_lt_zero _)
  | [], fuel + 1, held, s, hs, _ => by
    obtain ⟨s', hp, hs'⟩ := hin.pull hs
    exact ⟨s', by simp [extend, hp], hs'⟩
  | x :: rest, fuel + 1, held, s, hs, hn => by
    obtain ⟨s₁, hp, hs₁⟩ := hin.pull hs
    simp only [List.head?_cons, List.tail_cons] at hp hs₁
    by_cases hx : same x anchor = true
    · -- `x` replaces the element held
      obtain ⟨s', he, hs'⟩ := extend_eq hin anchor x hs₁ (by simpa using hn)
      refine ⟨s', ?_, by simpa [List.dropWhile_cons, hx] using hs'⟩
      rw [extend, hp]
      simp [hx, he]
    · exact ⟨s₁, by simp [extend, hp, hx], by simpa [List.dropWhile_cons, hx] using hs₁⟩

/-- A last-of-run reader over an input that yields `rest`: it hands out `keepLastBy` of the
element held, if any, followed by `rest`. -/
def Holds (same : α → α → Bool) (R : σ → List α → Prop) (fuel : Nat) (p : Option α × σ)
    (ys : List α) : Prop :=
  ∃ rest, R p.2 rest ∧ rest.length < fuel ∧ ys = keepLastBy same (p.1.toList ++ rest)

/-- A run ended by `extend` leaves a state that holds the last elements of the runs after it. -/
theorem holds_extend (hin : input.Yields R) {fuel : Nat} (first : α) {rest : List α} {s : σ}
    (hs : R s rest) (hn : rest.length < fuel) :
    ∃ p', extend same input first fuel first s =
        (.ok ((first :: rest.takeWhile (same · first)).getLast (List.cons_ne_nil _ _)), p'.1, p'.2) ∧
      Holds same R fuel p' (keepLastBy same (rest.dropWhile (same · first))) := by
  obtain ⟨s', he, hs'⟩ := extend_eq same hin first first hs hn
  have hlen : (rest.dropWhile (same · first)).tail.length < fuel := by
    have := List.length_dropWhile_le (same · first) rest
    rw [List.length_tail]
    omega
  refine ⟨((rest.dropWhile (same · first)).head?, s'), he, _, hs', hlen, ?_⟩
  cases rest.dropWhile (same · first) <;> simp

/-- **The last-of-run reader yields `keepLastBy`** of what its input yields, within a budget
per call beyond the input's length. -/
theorem yields_keepLastBy (hin : input.Yields R) (fuel : Nat) :
    (feed same fuel input).Yields (Holds same R fuel) where
  hasNext := by
    rintro ⟨pending, s⟩ _ ⟨rest, hs, hn, rfl⟩
    cases pending with
    | some held =>
      exact ⟨(some held, s), by simp [hasNext, keepLastBy, keepLastBy_go_ne_nil], rest, hs, hn, rfl⟩
    | none =>
      obtain ⟨s', hh, hs'⟩ := hin.hasNext hs
      refine ⟨(none, s'), ?_, rest, hs', hn, rfl⟩
      cases rest <;> simp [hasNext, hh, keepLastBy, keepLastBy_go_ne_nil]
  tryNext := by
    rintro ⟨pending, s⟩ a ys ⟨rest, hs, hn, hys⟩
    cases pending with
    | some held =>
      obtain ⟨p', he, hp'⟩ := holds_extend same hin held hs hn
      rw [Option.toList_some, List.singleton_append, keepLastBy, keepLastBy_go_eq,
        List.cons.injEq] at hys
      refine ⟨p', ?_, hys.2 ▸ hp'⟩
      simp [tryNext, he, hys.1]
    | none =>
      cases rest with
      | nil => simp [keepLastBy] at hys
      | cons x rest =>
        -- the first element of the input begins the run
        obtain ⟨s₁, hp, hs₁⟩ := hin.pull hs
        simp only [List.head?_cons, List.tail_cons] at hp hs₁
        obtain ⟨p', he, hp'⟩ := holds_extend same hin x hs₁ (Nat.lt_of_succ_lt (by simpa using hn))
        rw [Option.toList_none, List.nil_append, keepLastBy, keepLastBy_go_eq, List.cons.injEq] at hys
        refine ⟨p', ?_, hys.2 ▸ hp'⟩
        simp [tryNext, hp, he, hys.1]

end KeepLast

/-! ## Agreement of the three adapters -/

/-- **The run adapters agree on runs.** Over an input that yields a finite list `xs`, for any
key function and tolerance and with budgets beyond the length of `xs`, grouping hands out
non-empty groups that flatten back to `xs`. Every element after the first of a group has a key
weakly equal to the key of the first, and the first element of each group has a key not weakly
equal to that of the first element of the group before. Keep-first hands out the first element
of every group and keep-last the last. -/
theorem runs_of_weak_keys [WeakEq κ] (key : α → κ) (t : Tolerance) {input : Feed σ α}
    {R : σ → List α → Prop} (hin : input.Yields R) {s : σ} {xs : List α} (hs : R s xs)
    {fuel n : Nat} (hfuel : xs.length < fuel) (hn : xs.length < n) :
    ∃ groups : List (List α),
      ((GroupBy.feed (fun a b => weakEq t (key a) (key b)) fuel input).takeAll n [] (#[], s)).1 =
        .ok groups ∧
      groups.flatten = xs ∧
      (∀ g ∈ groups, ∃ a rest, g = a :: rest ∧ ∀ y ∈ rest, weakEq t (key y) (key a) = true) ∧
      (groups.filterMap List.head?).IsChain (fun a b => weakEq t (key b) (key a) = false) ∧
      ((KeepFirst.feed (fun a b => weakEq t (key a) (key b)) fuel input).takeAll n []
        (KeepFirst.initial, s)).1 = .ok (groups.filterMap List.head?) ∧
      ((KeepLast.feed (fun a b => weakEq t (key a) (key b)) fuel input).takeAll n [] (none, s)).1 =
        .ok (groups.filterMap List.getLast?) := by
  have hruns : (runs (fun a b => weakEq t (key a) (key b)) xs).length < n :=
    (length_runs_le _ xs).trans_lt hn
  refine ⟨runs (fun a b => weakEq t (key a) (key b)) xs, ?_, flatten_runs _ xs,
    fun g hg => exists_cons_of_mem_runs _ hg, isChain_heads_runs _ xs, ?_, ?_⟩
  · exact (GroupBy.yields_runs _ hin fuel).takeAll_nil ⟨xs, hs, hfuel, by simp, by simp⟩ hruns
  · rw [← keepFirstBy_none_eq_heads]
    have hlen := (List.length_filterMap_le List.head? (runs (fun a b => weakEq t (key a) (key b)) xs))
    rw [← keepFirstBy_none_eq_heads] at hlen
    exact (KeepFirst.yields_keepFirstBy _ hin fuel).takeAll_nil
      ⟨xs, hs, hfuel, rfl, by simp [KeepFirst.initial]⟩ (hlen.trans_lt hruns)
  · rw [← keepLastBy_eq_lasts]
    have hlen := (List.length_filterMap_le List.getLast? (runs (fun a b => weakEq t (key a) (key b)) xs))
    rw [← keepLastBy_eq_lasts] at hlen
    exact (KeepLast.yields_keepLastBy _ hin fuel).takeAll_nil ⟨xs, hs, hfuel, by simp⟩
      (hlen.trans_lt hruns)

/-- Grouping `1.0, 1.001, 1.5, 1.505, 2.0` within `0.01`, as in the library's own example. -/
theorem runs_of_weak_keys_close_doubles :
    (Feed.ofList : Feed (List Float) Float).Yields (· = ·) ∧
      [1.0, 1.001, 1.5, 1.505, 2.0].length < 6 ∧
      ∃ groups : List (List Float),
        ((GroupBy.feed (fun a b => weakEq ⟨0.01⟩ (id a) (id b)) 6 Feed.ofList).takeAll 6 []
          (#[], [1.0, 1.001, 1.5, 1.505, 2.0])).1 = .ok groups ∧
        groups.flatten = [1.0, 1.001, 1.5, 1.505, 2.0] ∧
        (∀ g ∈ groups, ∃ a rest, g = a :: rest ∧ ∀ y ∈ rest, weakEq ⟨0.01⟩ (id y) (id a) = true) ∧
        (groups.filterMap List.head?).IsChain (fun a b => weakEq ⟨0.01⟩ (id b) (id a) = false) ∧
        ((KeepFirst.feed (fun a b => weakEq ⟨0.01⟩ (id a) (id b)) 6 Feed.ofList).takeAll 6 []
          (KeepFirst.initial, [1.0, 1.001, 1.5, 1.505, 2.0])).1 = .ok (groups.filterMap List.head?) ∧
        ((KeepLast.feed (fun a b => weakEq ⟨0.01⟩ (id a) (id b)) 6 Feed.ofList).takeAll 6 []
          (none, [1.0, 1.001, 1.5, 1.505, 2.0])).1 = .ok (groups.filterMap List.getLast?) :=
  ⟨Feed.yields_ofList, by decide,
    runs_of_weak_keys id ⟨0.01⟩ Feed.yields_ofList rfl (by decide) (by decide)⟩

end LazySeq
