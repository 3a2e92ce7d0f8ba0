import LazySeq.Proofs.Series.Lookup
import LazySeq.Proofs.Stream.Runs

/-!
# Resampling a series

`Series.relocate t s ks` builds the series whose steps start at the keys `ks`, each with the value
`s` has in force there, after the default entry of `s` if it has one; `Series.relocateFrom` does the
same with the keys read from an input, through the readers of `Series.read`.

Reading goes the way of lists: from an input that yields a list of observations, within a budget
beyond its length, `read` builds the series `build` builds from that list (`Series.read_eq_build`),
and `relocateFrom` the one `relocate` builds (`Series.relocateFrom_eq_relocate`).

When the keys come in order and weak equality is equality, the observations `relocate` builds from
are in key order, so the result is their step function (`Series.build_apply_eq_valueAt`): at a key,
the value of `s` at the greatest of `ks` at or below it, the default value of `s` below them all.

**Main statement.** `Series.relocate_resamples`.
-/

namespace LazySeq

variable {σ α κ ν β : Type}

/-- A list in front of an input yields the list, then what the input yields. -/
theorem Feed.yields_prepend {f : Feed σ α} {R : σ → List α → Prop} (h : f.Yields R) :
    (Feed.prepend f).Yields (fun p ys => ∃ xs, R p.2 xs ∧ ys = p.1 ++ xs) where
  hasNext := by
    rintro ⟨pre, s⟩ _ ⟨xs, hs, rfl⟩
    cases pre with
    | cons x rest => exact ⟨(x :: rest, s), rfl, xs, hs, rfl⟩
    | nil =>
      obtain ⟨s', hh, hs'⟩ := h.hasNext hs
      exact ⟨([], s'), by simp [Feed.prepend, hh], xs, hs', rfl⟩
  tryNext := by
    rintro ⟨pre, s⟩ a ys ⟨xs, hs, hys⟩
    cases pre with
    | cons x rest =>
      obtain ⟨rfl, rfl⟩ := List.cons.inj hys
      exact ⟨(rest, s), rfl, xs, hs, rfl⟩
    | nil =>
      rw [List.nil_append] at hys
      subst hys
      obtain ⟨s', ht, hs'⟩ := h.tryNext hs
      exact ⟨([], s'), by simp [Feed.prepend, ht], ys, hs', rfl⟩

namespace Series

/-! ## Reading goes the way of lists -/

section Read

variable [WeakEq κ] [WeakEq ν] [PartialCompare κ] {t : Tolerance} {fuel : Nat}

omit [PartialCompare κ] in
/-- Over an input that yields `es`, the cleansing readers yield `cleanse t es`, drained within
any budget beyond the length of `es`. -/
theorem takeAll_cleansing {input : Feed σ (Entry κ ν)} {R : σ → List (Entry κ ν) → Prop}
    (hin : input.Yields R) {s : σ} {es : List (Entry κ ν)} (hs : R s es) (hfuel : es.length < fuel) :
    ((cleansing t fuel input).takeAll fuel [] (KeepFirst.initial, none, s)).1 = .ok (cleanse t es) := by
  have hlast := KeepLast.yields_keepLastBy (fun a b : Entry κ ν => weakEq t a.1 b.1) hin fuel
  have hfirst := KeepFirst.yields_keepFirstBy (fun a b : Entry κ ν => weakEq t a.2 b.2) hlast fuel
  have hlen : (keepLastBy (fun a b : Entry κ ν => weakEq t a.1 b.1) es).length < fuel :=
    (keepLastBy_sublist _ es).length_le.trans_lt hfuel
  exact hfirst.takeAll_nil ⟨_, ⟨es, hs, hfuel, by simp⟩, hlen, rfl, by simp [KeepFirst.initial, cleanse]⟩
    ((cleanse_sublist t es).length_le.trans_lt hfuel)

/-- **Reading an input builds the series of what it yields**, a refusal turned into a failure. -/
theorem read_eq_build {input : Feed σ (Entry κ ν)} {R : σ → List (Entry κ ν) → Prop}
    (hin : input.Yields R) {s : σ} {es : List (Entry κ ν)} (hs : R s es) (hfuel : es.length < fuel) :
    (read t fuel input s).1 = (build t es).mapError Halt.fail := by
  have htake : ((cleansing t fuel input).takeAll fuel [] (KeepFirst.initial, none, s)).1 =
      .ok (cleanse t es) := takeAll_cleansing hin hs hfuel
  unfold read
  rcases hta : (cleansing t fuel input).takeAll fuel [] (KeepFirst.initial, none, s) with ⟨r, st⟩
  rw [hta] at htake
  subst htake
  simp only [build]
  cases ofCleansed (cleanse t es) <;> rfl

/-- The default entry of a series, if it has one, as `relocate` keeps it. -/
def defaultEntries (s : Series κ ν) : List (Entry κ ν) :=
  match s.entries with
  | (none, v) :: _ => [(none, v)]
  | _ => []

theorem relocate_eq (s : Series κ ν) (ks : List κ) :
    s.relocate t ks = build t (s.defaultEntries ++ ks.map fun k => (some k, s.apply k)) :=
  rfl

/-- **Resampling at keys read from an input is resampling at the list of them**, within a budget
beyond its length and the default. -/
theorem relocateFrom_eq_relocate (s : Series κ ν) {keys : Feed σ κ} {R : σ → List κ → Prop}
    (hin : keys.Yields R) {st : σ} {ks : List κ} (hks : R st ks) (hfuel : ks.length + 1 < fuel) :
    (s.relocateFrom t fuel keys st).1 = (s.relocate t ks).mapError Halt.fail := by
  have hy := Feed.yields_prepend (hin.map fun k => ((some k, s.apply k) : Entry κ ν))
  have hdef : s.defaultEntries.length ≤ 1 := by
    unfold defaultEntries
    split <;> simp
  have hread : (read t fuel (Feed.prepend (keys.map fun k => ((some k, s.apply k) : Entry κ ν)))
      (s.defaultEntries, st)).1 =
      (build t (s.defaultEntries ++ ks.map fun k => (some k, s.apply k))).mapError Halt.fail :=
    read_eq_build hy ⟨_, ⟨ks, hks, rfl⟩, rfl⟩ (by simp; omega)
  rw [relocate_eq, ← hread]
  rfl

end Read

/-! ## The observations resampled -/

section Resampled

variable [PartialCompare κ] [LinearOrder β] {rank : κ → β}

/-- The default comes first and the keys come in order: the observations are in key order. -/
theorem keysSorted_resampled (s : Series κ ν) {ks : List κ} (hks : ks.Pairwise fun a b => rank a ≤ rank b) :
    KeysSorted rank (s.defaultEntries ++ ks.map fun k => ((some k, s.apply k) : Entry κ ν)) := by
  have hkeyed : KeysSorted rank (ks.map fun k => ((some k, s.apply k) : Entry κ ν)) := by
    simpa [KeysSorted, List.pairwise_map] using hks
  unfold defaultEntries
  split
  · refine List.pairwise_append.2 ⟨List.pairwise_singleton _ _, hkeyed, ?_⟩
    intro a ha b _
    obtain rfl := List.mem_singleton.1 ha
    exact bot_le
  · exact hkeyed

/-- Before the keys only the default is read. -/
theorem inForce_defaultEntries (s : Series κ ν) (x : κ) :
    inForce (some x) none s.defaultEntries = s.defaultValue := by
  unfold defaultEntries defaultValue
  split <;> simp_all

/-- The last default among the observations is that of the series. -/
theorem defaultOf_resampled (s : Series κ ν) (ks : List κ) :
    defaultOf (s.defaultEntries ++ ks.map fun k => ((some k, s.apply k) : Entry κ ν)) = s.defaultValue := by
  have hkeyed : (ks.map fun k => ((some k, s.apply k) : Entry κ ν)).filter (·.1.isNone) = [] := by
    simp
  unfold defaultOf
  rw [List.filter_append, hkeyed, List.append_nil]
  unfold defaultEntries defaultValue
  split <;> simp_all

/-- The keys resampled at or below `x` are the keys of `ks` at or below it, in order. -/
theorem inForce_resampled (s : Series κ ν) (ks : List κ) (x : κ) (before : Option ν) :
    inForce (some x) before (ks.map fun k => ((some k, s.apply k) : Entry κ ν)) =
      (((ks.filter fun k => PartialCompare.le (some k) (some x)).getLast?).map s.apply).getD before := by
  rw [inForce_eq_getLast_filter, List.filter_map, List.getLast?_map, Option.map_map]
  rfl

end Resampled

/-- In a list in order, every element is at or below the last. -/
theorem le_of_getLast? {l : List κ} {rank : κ → β} [LinearOrder β]
    (hl : l.Pairwise fun a b => rank a ≤ rank b) {z y : κ} (hz : l.getLast? = some z) (hy : y ∈ l) :
    rank y ≤ rank z := by
  obtain ⟨l', rfl⟩ := List.getLast?_eq_some_iff.1 hz
  rcases List.mem_append.1 hy with hy' | hy'
  · exact (List.pairwise_append.1 hl).2.2 y hy' z List.mem_cons_self
  · obtain rfl : y = z := by simpa using hy'
    exact le_rfl

section Relocate

variable [PartialCompare κ] [WeakEq κ] [WeakEq ν] [LinearOrder β] {rank : κ → β}

/-- **Resampling gives the step function sampled at the keys.** When the keys come in order and
weak equality at the tolerance is equality on keys and values, with keys ordered by an injective
rank, resampling any series at `ks` is accepted, with a series `r` that gives at every key `x` the
value the series has at the greatest of `ks` at or below `x`, and the series' default value
below them all; `r` keeps the series' default value. Reading the keys from any input that yields
`ks` gives `r` too, within a budget beyond their number and the default. -/
theorem relocate_resamples {t : Tolerance} (hr : RankedOn (fun _ => True) rank)
    (hinj : Function.Injective rank) (hk : ExactOn t κ) (hv : ExactOn t ν) (s : Series κ ν)
    {ks : List κ} (hks : ks.Pairwise fun a b => rank a ≤ rank b) :
    ∃ r, s.relocate t ks = .ok r ∧
      (∀ x k, k ∈ ks → rank k ≤ rank x → (∀ k' ∈ ks, rank k' ≤ rank x → rank k' ≤ rank k) →
        r.apply x = s.apply k) ∧
      (∀ x, (∀ k ∈ ks, rank x < rank k) → r.apply x = s.defaultValue) ∧
      r.defaultValue = s.defaultValue ∧
      ∀ {σ : Type} (keys : Feed σ κ) (R : σ → List κ → Prop) (st : σ) (fuel : Nat),
        keys.Yields R → R st ks → ks.length + 1 < fuel → (s.relocateFrom t fuel keys st).1 = .ok r := by
  have hsorted := keysSorted_resampled s hks
  obtain ⟨r, hbuild, happly, hnone⟩ := build_apply_eq_valueAt hr hinj hk hv hsorted
  have hrel : s.relocate t ks = .ok r := by rw [relocate_eq, hbuild]
  -- at `x`, the value of the last key of `ks` at or below `x`, else the default
  have hat : ∀ x, r.apply x =
      (((ks.filter fun k => PartialCompare.le (some k) (some x)).getLast?).map s.apply).getD
        s.defaultValue := by
    intro x
    rw [happly, valueAt_eq_inForce hr hsorted, inForce_append, inForce_defaultEntries,
      inForce_resampled]
  have hle : ∀ k x, PartialCompare.le (some k) (some x) = true ↔ rank k ≤ rank x :=
    fun k x => le_some_some_iff hr
  refine ⟨r, hrel, fun x k hk hkx hgreat => ?_, fun x hbelow => ?_, ?_, ?_⟩
  · -- the last key at or below `x` is at least `k`, and at most `k`, so it is `k`
    have hkf : k ∈ ks.filter fun k => PartialCompare.le (some k) (some x) :=
      List.mem_filter.2 ⟨hk, (hle k x).2 hkx⟩
    obtain ⟨m, hm⟩ := List.getLast?_isSome.2 (List.ne_nil_of_mem hkf) |> Option.isSome_iff_exists.1
    obtain ⟨hmks, hmx⟩ := List.mem_filter.1 (List.mem_of_getLast? hm)
    have hkm : rank k ≤ rank m := le_of_getLast? (hks.sublist List.filter_sublist) hm hkf
    have hmk : rank m ≤ rank k := hgreat m hmks ((hle m x).1 hmx)
    obtain rfl : m = k := hinj (le_antisymm hmk hkm)
    rw [hat, hm]
    rfl
  · have hnil : (ks.filter fun k => PartialCompare.le (some k) (some x)) = [] :=
      List.filter_eq_nil_iff.2 fun k hk hkx => absurd ((hle k x).1 hkx) (not_le.2 (hbelow k hk))
    rw [hat, hnil]
    rfl
  · rw [← (Produced.relocate hrel).checked.applyAt_none, hnone, defaultOf_resampled]
  · intro σ keys R st fuel hin hst hfuel
    rw [relocateFrom_eq_relocate s hin hst hfuel, hrel]
    rfl

end Relocate

/-- The library's own example: the word series with steps `7` from `0`, `17` from `10` and no value
from `20`, resampled at `-5, 5, 12, 15, 25`. -/
theorem relocate_resamples_words :
    RankedOn (fun _ : Int64 => True) Int64.toInt ∧ Function.Injective Int64.toInt ∧
      ExactOn Tolerance.exact Int64 ∧
      ([-5, 5, 12, 15, 25] : List Int64).Pairwise (fun a b => a.toInt ≤ b.toInt) ∧
      ∃ r, (⟨[(none, none), (some 0, some 7), (some 10, some 17), (some 20, none)]⟩ :
          Series Int64 Int64).relocate Tolerance.exact [-5, 5, 12, 15, 25] = .ok r ∧
        (∀ x k, k ∈ ([-5, 5, 12, 15, 25] : List Int64) → k.toInt ≤ x.toInt →
          (∀ k' ∈ ([-5, 5, 12, 15, 25] : List Int64), k'.toInt ≤ x.toInt → k'.toInt ≤ k.toInt) →
          r.apply x = (⟨[(none, none), (some 0, some 7), (some 10, some 17), (some 20, none)]⟩ :
            Series Int64 Int64).apply k) ∧
        (∀ x : Int64, (∀ k ∈ ([-5, 5, 12, 15, 25] : List Int64), x.toInt < k.toInt) →
          r.apply x = (⟨[(none, none), (some 0, some 7), (some 10, some 17), (some 20, none)]⟩ :
            Series Int64 Int64).defaultValue) ∧
        r.defaultValue = (⟨[(none, none), (some 0, some 7), (some 10, some 17), (some 20, none)]⟩ :
          Series Int64 Int64).defaultValue ∧
        ∀ {σ : Type} (keys : Feed σ Int64) (R : σ → List Int64 → Prop) (st : σ) (fuel : Nat),
          keys.Yields R → R st [-5, 5, 12, 15, 25] → ([-5, 5, 12, 15, 25] : List Int64).length + 1 < fuel →
          ((⟨[(none, none), (some 0, some 7), (some 10, some 17), (some 20, none)]⟩ :
            Series Int64 Int64).relocateFrom Tolerance.exact fuel keys st).1 = .ok r :=
  ⟨rankedOn_toInt, fun _ _ => Int64.toInt_inj.1, exactOn_int64 _, by decide,
    relocate_resamples rankedOn_toInt (fun _ _ => Int64.toInt_inj.1) (exactOn_int64 _) (exactOn_int64 _)
      _ (by decide)⟩

end Series

end LazySeq
