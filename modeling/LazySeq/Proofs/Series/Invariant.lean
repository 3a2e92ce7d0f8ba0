import LazySeq.Proofs.Binary64.Order
import LazySeq.Proofs.Series.Cleanse

/-!
# The representation invariant of series

Every series the library hands out went through `Series.ofCleansed`, which puts the default entry
(if one remains) first and refuses two defaults and any keyed neighbours whose first key is at or
above the second. `Series.Checked` is that test as a property of the result; it survives taking a
window (`subSeries`) or a slice, since both keep a stretch of neighbouring entries.

The test looks at neighbours only, with "at or above". For ranked keys (words, texts, doubles that
are numbers) that is enough: all keys then strictly increase, the default first
(`RankedOn.pairwise_lt_of_isChain`). A double that is not a number is neither at or above nor below
anything, so `[5, NaN, 3]` passes the test with `5` above `3`.

**Main statement.** `Series.Produced.keys_pairwise_lt`: every series built, read, resampled or
merged, and every window or slice of one, has strictly increasing keys with at most one default,
standing first, as soon as its keys are ranked; and for ranked keys `build` refuses exactly the
observations whose cleansed keys do not strictly increase.
-/

namespace LazySeq

namespace Series

variable {κ ν : Type}

@[simp] theorem keys_mk (entries : List (Entry κ ν)) : (⟨entries⟩ : Series κ ν).keys = entries.map (·.1) :=
  rfl

/-- A slice is a stretch of neighbouring entries. -/
theorem slice_window {s s' : Series κ ν} {i j : Nat} (h : s.slice i j = .ok s') :
    ∃ i k, s'.entries = (s.entries.drop i).take k := by
  unfold slice at h
  split at h
  · cases h
  · cases h
    exact ⟨_, _, rfl⟩

variable [PartialCompare κ]

/-- A window is a stretch of neighbouring entries, whatever its bounds. -/
theorem subSeries_window {s s' : Series κ ν} {lo hi : Option κ} (h : s.subSeries lo hi = .ok s') :
    ∃ i k, s'.entries = (s.entries.drop i).take k := by
  cases lo with
  | none =>
    cases hi with
    | none =>
      simp only [subSeries, pure, Except.pure, Except.ok.injEq] at h
      exact ⟨0, s.entries.length, by simp [← h]⟩
    | some b =>
      simp only [subSeries, pure, Except.pure, Except.ok.injEq] at h
      exact ⟨_, _, by rw [← h]⟩
  | some a =>
    cases hi with
    | none =>
      simp only [subSeries, pure, Except.pure, Except.ok.injEq] at h
      exact ⟨_, _, by rw [← h]⟩
    | some b =>
      simp only [subSeries] at h
      split at h
      · simp only [pure, Except.pure, Except.ok.injEq] at h
        exact ⟨_, _, by rw [← h]⟩
      · simp [throw, throwThe, MonadExceptOf.throw, Functor.map, Except.map] at h
      · simp [throw, throwThe, MonadExceptOf.throw, Functor.map, Except.map] at h

/-- The test `ofCleansed` makes of a series' keys: no key is at or above the key after it (an
absent key is below every present one and equal to another absent one). -/
def Checked (s : Series κ ν) : Prop := s.keys.IsChain fun a b => PartialCompare.ge a b = false

/-- A stretch of neighbouring entries of a checked series is checked. -/
theorem Checked.window {s s' : Series κ ν} (hs : s.Checked) {i k : Nat}
    (h : s'.entries = (s.entries.drop i).take k) : s'.Checked := by
  have hkeys : s'.keys = (s.keys.drop i).take k := by
    simp [keys, h, List.map_take, List.map_drop]
  unfold Checked
  rw [hkeys]
  exact (hs.drop i).take k

@[simp] theorem ge_none (a : Option κ) : PartialCompare.ge a none = true := by
  cases a <;> rfl

/-- Under the test only the first key can be absent, whatever the keys: every key is at or
above an absent one. -/
theorem Checked.eq_zero_of_getElem_eq_none {s : Series κ ν} (hs : s.Checked) {i : Nat}
    (hi : i < s.keys.length) (h : s.keys[i] = none) : i = 0 := by
  cases i with
  | zero => rfl
  | succ i =>
    have hstep := hs.getElem i hi
    simp [h] at hstep

/-! ## What `ofCleansed` hands out -/

/-- The series `ofCleansed` accepts: the default entries (at most one) and then the keyed ones,
whose neighbours passed the test. -/
theorem ofCleansed_eq_ok {c : List (Entry κ ν)} {s : Series κ ν} (h : ofCleansed c = .ok s) :
    s = ⟨c.filter (·.1.isNone) ++ c.filter (·.1.isSome)⟩ ∧ (c.filter (·.1.isNone)).length ≤ 1 ∧
      ((c.filter (·.1.isSome)).zip (c.filter (·.1.isSome)).tail).any
        (fun p => PartialCompare.ge p.1.1 p.2.1) = false := by
  simp only [ofCleansed] at h
  split at h
  · cases h
  · split at h
    · cases h
    · rename_i hone hcheck
      cases h
      exact ⟨rfl, by omega, by simpa using hcheck⟩

/-- A list of at most one element is a chain of any relation. -/
theorem isChain_of_length_le_one {α : Type} {R : α → α → Prop} :
    ∀ {l : List α}, l.length ≤ 1 → l.IsChain R
  | [], _ => .nil
  | [a], _ => .singleton a
  | _ :: _ :: _, h => by simp at h

/-- The keyed entries `ofCleansed` accepts pass the test. -/
theorem isChain_keyed_of_ofCleansed {c : List (Entry κ ν)} {s : Series κ ν}
    (h : ofCleansed c = .ok s) :
    ((c.filter (·.1.isSome)).map (·.1)).IsChain (fun a b => PartialCompare.ge a b = false) := by
  obtain ⟨-, -, hcheck⟩ := ofCleansed_eq_ok h
  exact (List.isChain_map _).2
    (isChain_of_any_zip_tail (fun (a b : Entry κ ν) => PartialCompare.ge a.1 b.1) hcheck)

theorem checked_of_ofCleansed {c : List (Entry κ ν)} {s : Series κ ν} (h : ofCleansed c = .ok s) :
    s.Checked := by
  have hkeyed := isChain_keyed_of_ofCleansed h
  obtain ⟨rfl, hone, -⟩ := ofCleansed_eq_ok h
  simp only [Checked, keys_mk, List.map_append]
  refine List.isChain_append.2 ⟨isChain_of_length_le_one (by simpa using hone), hkeyed, ?_⟩
  -- the default's key is absent, and an absent key is below any present one
  intro x hx y hy
  obtain ⟨d, hd, rfl⟩ : ∃ d ∈ c.filter (·.1.isNone), d.1 = x := by
    simpa using List.mem_of_getLast? hx
  obtain ⟨e, he, rfl⟩ : ∃ e ∈ c.filter (·.1.isSome), e.1 = y := by
    simpa using List.mem_of_mem_head? hy
  have hdn : d.1 = none := by simpa using (List.mem_filter.1 hd).2
  obtain ⟨k, hk⟩ := Option.isSome_iff_exists.1 (List.mem_filter.1 he).2
  simp [hdn, hk, PartialCompare.ge, partialCompare]

/-- `ofCleansed` refuses only with an invalid argument. -/
theorem ofCleansed_error {c : List (Entry κ ν)} {e : SeqError} (h : ofCleansed c = .error e) :
    ∃ msg, e = .invalidArgument msg := by
  simp only [ofCleansed] at h
  split at h
  · cases h
    exact ⟨_, rfl⟩
  · split at h
    · cases h
      exact ⟨_, rfl⟩
    · cases h

/-! ## Every way of making a series goes through `ofCleansed` -/

variable [WeakEq κ] [WeakEq ν]

theorem exists_ofCleansed_of_read {σ : Type} {t : Tolerance} {fuel : Nat}
    {input : Feed σ (Entry κ ν)} {st : σ} {s : Series κ ν} (h : (read t fuel input st).1 = .ok s) :
    ∃ c, ofCleansed c = .ok s := by
  unfold read at h
  split at h
  rename_i r rest heq
  split at h
  · cases h
  · split at h
    · rename_i c _ _ hc
      cases h
      exact ⟨c, hc⟩
    · cases h

theorem exists_ofCleansed_of_relocateFrom {σ : Type} {t : Tolerance} {fuel : Nat} {base : Series κ ν}
    {keys : Feed σ κ} {st : σ} {s : Series κ ν} (h : (relocateFrom t fuel base keys st).1 = .ok s) :
    ∃ c, ofCleansed c = .ok s := by
  simp only [relocateFrom] at h
  exact exists_ofCleansed_of_read h

/-! ## The series handed out -/

/-- The series the library hands out: built, read, resampled and merged ones, and the windows
and slices of these. -/
inductive Produced : Series κ ν → Prop
  | build {t : Tolerance} {es : List (Entry κ ν)} {s : Series κ ν} :
      Series.build t es = .ok s → Produced s
  | read {σ : Type} {t : Tolerance} {fuel : Nat} {input : Feed σ (Entry κ ν)} {st : σ}
      {s : Series κ ν} : (Series.read t fuel input st).1 = .ok s → Produced s
  | relocate {t : Tolerance} {base : Series κ ν} {keys : List κ} {s : Series κ ν} :
      Series.relocate t base keys = .ok s → Produced s
  | relocateFrom {σ : Type} {t : Tolerance} {fuel : Nat} {base : Series κ ν} {keys : Feed σ κ}
      {st : σ} {s : Series κ ν} : (Series.relocateFrom t fuel base keys st).1 = .ok s → Produced s
  | merge {μ : Type} {t : Tolerance} {combine : List (Option μ) → Option ν}
      {series : List (Series κ μ)} {s : Series κ ν} : Series.merge t combine series = .ok s → Produced s
  | subSeries {s s' : Series κ ν} {lo hi : Option κ} :
      Produced s → s.subSeries lo hi = .ok s' → Produced s'
  | slice {s s' : Series κ ν} {i j : Nat} : Produced s → s.slice i j = .ok s' → Produced s'

/-- **Every series handed out passes the test of `ofCleansed`.** -/
theorem Produced.checked {s : Series κ ν} (h : Produced s) : s.Checked := by
  induction h with
  | build h => exact checked_of_ofCleansed h
  | read h =>
    obtain ⟨c, hc⟩ := exists_ofCleansed_of_read h
    exact checked_of_ofCleansed hc
  | relocate h => exact checked_of_ofCleansed h
  | relocateFrom h =>
    obtain ⟨c, hc⟩ := exists_ofCleansed_of_relocateFrom h
    exact checked_of_ofCleansed hc
  | merge h => exact checked_of_ofCleansed h
  | subSeries _ h ih =>
    obtain ⟨i, k, hw⟩ := subSeries_window h
    exact ih.window hw
  | slice _ h ih =>
    obtain ⟨i, k, hw⟩ := slice_window h
    exact ih.window hw

/-! ## Strictly increasing keys -/

section Ranked

variable {β : Type} [LinearOrder β] {good : κ → Prop} {rank : κ → β}

/-- **The representation invariant.** Every series handed out has at most one default entry,
standing first, whatever its keys; when its keys are ranked, all of them strictly increase. And
for ranked keys `build` refuses, with an invalid argument, every list of observations whose
cleansed keys do not strictly increase. -/
theorem Produced.keys_pairwise_lt (hr : RankedOn good rank) :
    (∀ s : Series κ ν, Produced s →
      (∀ i (hi : i < s.keys.length), s.keys[i] = none → i = 0) ∧
      ((∀ k ∈ s.keys, AllGood good k) → s.keys.Pairwise (fun a b => PartialCompare.lt a b = true))) ∧
    ∀ (t : Tolerance) (es : List (Entry κ ν)), (∀ e ∈ es, AllGood good e.1) →
      ¬ (((cleanse t es).filter (·.1.isSome)).map (·.1)).Pairwise
          (fun a b => PartialCompare.lt a b = true) →
      ∃ msg, Series.build t es = .error (.invalidArgument msg) := by
  refine ⟨fun s hs => ⟨fun i hi h => hs.checked.eq_zero_of_getElem_eq_none hi h,
    fun hgood => hr.pairwise_lt_of_isChain hgood hs.checked⟩, ?_⟩
  intro t es hgood hnot
  cases hb : Series.build t es with
  | error e =>
    obtain ⟨msg, rfl⟩ := ofCleansed_error hb
    exact ⟨msg, rfl⟩
  | ok s =>
    -- an accepted list passed the neighbour test, and ranked neighbours in order are all in order
    refine absurd (hr.pairwise_lt_of_isChain ?_ (isChain_keyed_of_ofCleansed hb)) hnot
    intro k hk
    obtain ⟨e, he, rfl⟩ := List.mem_map.1 hk
    exact hgood e ((cleanse_sublist t es).subset (List.mem_filter.1 he).1)

end Ranked

end Series

/-- Two double keys in order: the built series has strictly increasing keys. -/
theorem Series.build_doubles_keys_increase :
    RankedOn (fun x : Float => x.isNaN = false) Binary64.rank ∧
      (⟨[(some 1.0, some 1.0), (some 2.0, some 2.0)]⟩ : Series Float Float).keys.Pairwise
        (fun a b => PartialCompare.lt a b = true) :=
  ⟨Binary64.rankedOn_not_nan,
    ((Series.Produced.keys_pairwise_lt Binary64.rankedOn_not_nan).1 _
      (Series.Produced.build (show Series.build Tolerance.exact
        [(some (1.0 : Float), some (1.0 : Float)), (some 2.0, some 2.0)] =
          .ok ⟨[(some 1.0, some 1.0), (some 2.0, some 2.0)]⟩ from rfl))).2
      (by decide)⟩

/-- Observations keyed `5`, NaN, `3`: the neighbour test passes, since NaN is neither at or above
nor below anything, and the series is built with `5` before `3`. -/
theorem Series.build_nan_between_unordered :
    Series.build Tolerance.exact
        [(some (5.0 : Float), some (1.0 : Float)), (some (0.0 / 0.0), some 2.0), (some 3.0, some 3.0)] =
      .ok ⟨[(some 5.0, some 1.0), (some (0.0 / 0.0), some 2.0), (some 3.0, some 3.0)]⟩ ∧
    ¬ (⟨[(some (5.0 : Float), some (1.0 : Float)), (some (0.0 / 0.0), some 2.0), (some 3.0, some 3.0)]⟩ :
        Series Float Float).keys.Pairwise (fun a b => PartialCompare.lt a b = true) :=
  ⟨rfl, by decide⟩

end LazySeq
