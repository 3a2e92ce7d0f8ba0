import LazySeq.Proofs.Series.Invariant
import LazySeq.Proofs.Series.MergeLists
import LazySeq.Proofs.Series.StepFunction
import Mathlib

/-!
# Merging series combines them pointwise

`Series.boundaries` merges the key lists of some series and keeps the first of each run of weakly
equal keys; `Series.steps` pairs every boundary with the values the series have in force there,
and `Series.merge` builds the series of the combined values.

For series handed out by the library whose keys are ranked, the merged keys are sorted, so the
boundaries strictly increase as soon as weak equality holds of keys of equal rank; the merge is
then always accepted, at any tolerance. When weak equality is equality, the boundaries are the
keys of the inputs, each once, and each input is constant from one boundary to the next: the
merged series gives at every key the combination of the inputs' values there, and nothing below
all the inputs' keys.

**Main statement.** `Series.merge_combines_pointwise`.
-/

namespace LazySeq

namespace Series

variable {κ ν ω β : Type} [LinearOrder β]

/-! ## Ranked keys that may be absent -/

section Keys

variable {good : κ → Prop} {rank : κ → β}

/-- Every key of a list sorted by rank is at or below the last one. -/
theorem orank_le_of_getLast? {ks : List (Option κ)} {z y : Option κ}
    (h : ks.Pairwise (fun a b => orank rank a < orank rank b)) (hz : ks.getLast? = some z)
    (hy : y ∈ ks) : orank rank y ≤ orank rank z := by
  obtain ⟨ks', rfl⟩ := List.getLast?_eq_some_iff.1 hz
  rcases List.mem_append.1 hy with hy' | hy'
  · exact (List.pairwise_append.1 h).2.2 y hy' z List.mem_cons_self |>.le
  · obtain rfl : y = z := by simpa using hy'
    exact le_rfl

variable [PartialCompare κ] [WeakEq κ] [WeakEq ν] (hr : RankedOn good rank)
include hr

/-- The entries of a series handed out strictly increase in key, when its keys are ranked. -/
theorem Produced.keysStrict {s : Series κ ν} (hs : Produced s)
    (hgood : ∀ k ∈ s.keys, AllGood good k) : KeysStrict rank s.entries := by
  have hlt : s.keys.Pairwise (fun a b => orank rank a < orank rank b) :=
    (hr.pairwise_lt_of_isChain hgood hs.checked).imp_of_mem fun ha hb h =>
      (hr.lt_iff (hgood _ ha) (hgood _ hb)).1 h
  simpa [KeysStrict, keys, List.pairwise_map] using hlt

end Keys

/-! ## The boundaries -/

section Boundaries

variable [PartialCompare κ] {good : κ → Prop} {rank : κ → β} {series : List (Series κ ν)}

/-- The merge of the key lists outputs each key of each input once, given its fuel. -/
theorem mergeLists_keys_perm (series : List (Series κ ν)) :
    (mergeLists (fun a b => (partialCompare a b).getD .eq)
        (((series.map keys).map List.length).foldr (· + ·) 0 + 1) (series.map keys)).Perm
      (series.map keys).flatten := by
  apply mergeLists_perm
  have hsum : ((series.map keys).map List.length).foldr (· + ·) 0 =
      (series.map keys).flatten.length := by
    rw [List.length_flatten]
    rfl
  omega

variable [WeakEq κ]

/-- With weak equality equality, the boundaries are the keys of the inputs. -/
theorem mem_boundaries {t : Tolerance} (hk : ExactOn t κ) (k : Option κ) :
    k ∈ boundaries t series ↔ ∃ s ∈ series, k ∈ s.keys := by
  have hperm := mergeLists_keys_perm series
  constructor
  · intro hmem
    have hmerged := (keepFirstBy_sublist _ none _).subset hmem
    obtain ⟨l, hl, hkl⟩ := List.mem_flatten.1 (hperm.subset hmerged)
    obtain ⟨s, hs, rfl⟩ := List.mem_map.1 hl
    exact ⟨s, hs, hkl⟩
  · rintro ⟨s, hs, hks⟩
    have hflat : k ∈ (series.map keys).flatten := List.mem_flatten.2 ⟨_, List.mem_map_of_mem hs, hks⟩
    rcases mem_keepFirstBy (fun a b h => (hk.option a b).1 h) none _ k (hperm.symm.subset hflat)
      with h | h
    · simp at h
    · exact h

/-- A merge builds the series of the combined values at the boundaries. -/
theorem merge_eq_build [WeakEq ω] (t : Tolerance) (combine : List (Option ν) → Option ω)
    (series : List (Series κ ν)) :
    merge t combine series =
      build t ((boundaries t series).map fun k => (k, combine (series.map (·.applyAt k)))) := by
  simp only [merge, steps, List.map_map]
  rfl

variable [WeakEq ν] (hr : RankedOn good rank)
  (hin : ∀ s ∈ series, Produced s ∧ ∀ k ∈ s.keys, AllGood good k)
include hr hin

/-- The merged keys are sorted by rank and drawn from the inputs, with any fuel. -/
theorem mergeLists_keys_sorted (fuel : Nat) :
    (mergeLists (fun a b => (partialCompare a b).getD .eq) fuel (series.map keys)).Pairwise
        (fun a b => orank rank a ≤ orank rank b) ∧
      ∀ y ∈ mergeLists (fun a b => (partialCompare a b).getD .eq) fuel (series.map keys),
        ∃ s ∈ series, y ∈ s.keys := by
  have hcmp : ∀ a b : Option κ, AllGood good a → AllGood good b →
      (partialCompare a b).getD .eq = compare (orank rank a) (orank rank b) := fun a b ha hb => by
    rw [hr.partialCompare_option ha hb]
    rfl
  have hlists : ∀ l ∈ series.map keys, (∀ a ∈ l, AllGood good a) ∧
      l.Pairwise (fun a b => orank rank a ≤ orank rank b) := by
    intro l hl
    obtain ⟨s, hs, rfl⟩ := List.mem_map.1 hl
    obtain ⟨hprod, hgood⟩ := hin s hs
    have hstrict := hprod.keysStrict hr hgood
    refine ⟨hgood, ?_⟩
    simpa [KeysSorted, keys, List.pairwise_map] using hstrict.keysSorted
  obtain ⟨hsorted, hfrom⟩ := mergeLists_sorted _ hcmp fuel _ hlists
  refine ⟨hsorted, fun y hy => ?_⟩
  obtain ⟨l, hl, hyl⟩ := hfrom y hy
  obtain ⟨s, hs, rfl⟩ := List.mem_map.1 hl
  exact ⟨s, hs, hyl⟩

/-- **The boundaries strictly increase**, at any tolerance at which keys of equal rank are weakly
equal, and each is a key of an input. -/
theorem boundaries_pairwise_lt {t : Tolerance}
    (hweak : ∀ a b, good a → good b → rank a = rank b → weakEq t a b = true) :
    (boundaries t series).Pairwise (fun a b => orank rank a < orank rank b) ∧
      ∀ k ∈ boundaries t series, ∃ s ∈ series, k ∈ s.keys := by
  obtain ⟨hsorted, hfrom⟩ := mergeLists_keys_sorted hr hin
    (((series.map keys).map List.length).foldr (· + ·) 0 + 1)
  have hgoodOf : ∀ k, (∃ s ∈ series, k ∈ s.keys) → AllGood good k := by
    rintro k ⟨s, hs, hks⟩
    exact (hin s hs).2 k hks
  -- keys of equal rank are weakly equal, so a kept key lies strictly above the one before
  have hsame : ∀ a b : Option κ, (∃ s ∈ series, a ∈ s.keys) → (∃ s ∈ series, b ∈ s.keys) →
      orank rank a = orank rank b → weakEq t a b = true := by
    intro a b ha hb hab
    have hga := hgoodOf a ha
    have hgb := hgoodOf b hb
    cases a with
    | none =>
      cases b with
      | none => rfl
      | some y => exact absurd hab (by simp)
    | some x =>
      cases b with
      | none => exact absurd hab (by simp)
      | some y =>
        rw [weakEq_some_some]
        exact hweak x y (by simpa using hga) (by simpa using hgb) (by simpa using hab)
  refine ⟨(keepFirstBy_pairwise_lt (orank rank) hsame none _ hfrom hsorted (by simp)).1,
    fun k hk => hfrom k ((keepFirstBy_sublist _ none _).subset hk)⟩

/-- **Merging never fails** at a tolerance at which keys of equal rank are weakly equal: the
entries built have strictly increasing keys, and so have the cleansed ones. -/
theorem merge_eq_ok [WeakEq ω] {t : Tolerance}
    (hweak : ∀ a b, good a → good b → rank a = rank b → weakEq t a b = true)
    (combine : List (Option ν) → Option ω) :
    merge t combine series = .ok ⟨cleanse t ((boundaries t series).map
      fun k => (k, combine (series.map (·.applyAt k))))⟩ := by
  obtain ⟨hstrict, hfrom⟩ := boundaries_pairwise_lt hr hin hweak
  have hentries : KeysStrict rank ((boundaries t series).map
      fun k => (k, combine (series.map (·.applyAt k)))) := by
    simpa [KeysStrict, List.pairwise_map] using hstrict
  have hgood : ∀ e ∈ cleanse t ((boundaries t series).map
      fun k => (k, combine (series.map (·.applyAt k)))), AllGood good e.1 := by
    intro e he
    obtain ⟨k, hk, rfl⟩ := List.mem_map.1 ((cleanse_sublist t _).subset he)
    obtain ⟨s, hs, hks⟩ := hfrom k hk
    exact (hin s hs).2 k hks
  rw [merge_eq_build]
  exact ofCleansed_of_keysStrict hr hgood (hentries.sublist (cleanse_sublist t _))

end Boundaries

/-! ## Exact weak equality -/

section Exact

variable [PartialCompare κ] [WeakEq κ] [WeakEq ω] {rank : κ → β}
  {series : List (Series κ ν)} (hr : RankedOn (fun _ => True) rank)
include hr

/-- The merged series gives at `x` the combination at the last boundary at or below `x`. -/
theorem apply_cleanse_boundaries (hinj : Function.Injective rank) {t : Tolerance}
    (hk : ExactOn t κ) (hω : ExactOn t ω)
    (hstrict : (boundaries t series).Pairwise (fun a b => orank rank a < orank rank b))
    (combine : List (Option ν) → Option ω) (x : κ) :
    (⟨cleanse t ((boundaries t series).map
        fun k => (k, combine (series.map (·.applyAt k))))⟩ : Series κ ω).apply x =
      ((((boundaries t series).filter fun k => PartialCompare.le k (some x)).getLast?).map
        fun k => combine (series.map (·.applyAt k))).getD none := by
  have hE : KeysStrict rank ((boundaries t series).map
      fun k => (k, combine (series.map (·.applyAt k)))) := by
    simpa [KeysStrict, List.pairwise_map] using hstrict
  obtain ⟨hcl, hkeep⟩ := cleanse_keysSorted hr hinj hk hω hE.keysSorted
  rw [apply, applyAt_of_keysStrict hr hcl, hkeep, inForce_eq_getLast_filter, List.filter_map,
    List.getLast?_map, Option.map_map]
  rfl

variable [WeakEq ν]

/-- **Each input is constant from one boundary to the next**: at the last boundary at or below
`x` it has the value it has at `x`. -/
theorem applyAt_last_boundary {t : Tolerance} (hk : ExactOn t κ) (hin : ∀ s ∈ series, Produced s)
    (hstrict : (boundaries t series).Pairwise (fun a b => orank rank a < orank rank b))
    {x : κ} {kstar : Option κ}
    (hlast : ((boundaries t series).filter fun k => PartialCompare.le k (some x)).getLast? =
      some kstar) :
    ∀ s ∈ series, s.applyAt kstar = s.applyAt (some x) := by
  intro s hs
  have hsk : KeysStrict rank s.entries := (hin s hs).keysStrict hr fun _ _ => allGood_true _
  obtain ⟨hkb, hkx⟩ := List.mem_filter.1 (List.mem_of_getLast? hlast)
  have hle : ∀ a b : Option κ, PartialCompare.le a b = true ↔ orank rank a ≤ orank rank b :=
    fun a b => hr.le_iff (allGood_true a) (allGood_true b)
  -- an entry at or below `x` has a key that is a boundary at or below `x`, so at or below `kstar`
  have hsame : ∀ e ∈ s.entries, PartialCompare.le e.1 kstar = PartialCompare.le e.1 (some x) := by
    intro e he
    have heb : e.1 ∈ boundaries t series :=
      (mem_boundaries hk e.1).2 ⟨s, hs, List.mem_map_of_mem he⟩
    cases hex : PartialCompare.le e.1 (some x) with
    | true =>
      exact (hle _ _).2 (orank_le_of_getLast? (hstrict.sublist List.filter_sublist) hlast
        (List.mem_filter.2 ⟨heb, hex⟩))
    | false =>
      cases hek : PartialCompare.le e.1 kstar with
      | false => rfl
      | true => exact absurd (le_of_orank_le hr ((hle _ _).1 hek) hkx) (by simp [hex])
  calc s.applyAt kstar = inForce kstar none s.entries := applyAt_of_keysStrict hr hsk kstar
    _ = inForce (some x) none s.entries := inForce_congr hsame none
    _ = s.applyAt (some x) := (applyAt_of_keysStrict hr hsk (some x)).symm

end Exact

/-! ## Pointwise combination -/

section Pointwise

variable [PartialCompare κ] [WeakEq κ] [WeakEq ν] [WeakEq ω] {good : κ → Prop} {rank : κ → β}

/-- **Merging series combines them pointwise.** For series handed out by the library with ranked
keys, merging is accepted at every tolerance at which keys of equal rank are weakly equal. When
all keys are ranked by an injective rank and weak equality is equality on keys and combined
values, the steps are the keys of the inputs, each once, in strictly increasing order with the
default first, each with the inputs' values there; and the merged series gives at every key at or
above some input key the combination of the inputs' values there, and nothing below them all. -/
theorem merge_combines_pointwise (hr : RankedOn good rank) {series : List (Series κ ν)}
    (hin : ∀ s ∈ series, Produced s ∧ ∀ k ∈ s.keys, AllGood good k) :
    (∀ (t : Tolerance) (combine : List (Option ν) → Option ω),
        (∀ a b, good a → good b → rank a = rank b → weakEq t a b = true) →
        ∃ m, merge t combine series = .ok m) ∧
      ((∀ a, good a) → Function.Injective rank → ∀ t : Tolerance, ExactOn t κ → ExactOn t ω →
        (∀ k, k ∈ (steps t series).map (·.1) ↔ ∃ s ∈ series, k ∈ s.keys) ∧
        ((steps t series).map (·.1)).Pairwise (fun a b => orank rank a < orank rank b) ∧
        (∀ p ∈ steps t series, p.2 = series.map (·.applyAt p.1)) ∧
        ∀ combine : List (Option ν) → Option ω, ∃ m, merge t combine series = .ok m ∧
          ∀ x : κ,
            ((∃ s ∈ series, ∃ k ∈ s.keys, orank rank k ≤ rank x) →
              m.apply x = combine (series.map (·.apply x))) ∧
            ((¬ ∃ s ∈ series, ∃ k ∈ s.keys, orank rank k ≤ rank x) → m.apply x = none)) := by
  refine ⟨fun t combine hweak => ⟨_, merge_eq_ok hr hin hweak combine⟩,
    fun hall hinj t hk hω => ?_⟩
  have hr' : RankedOn (fun _ => True) rank := hr.of_forall hall
  have hweak : ∀ a b, good a → good b → rank a = rank b → weakEq t a b = true :=
    fun a b _ _ h => (hk a b).2 (hinj h)
  have hprod : ∀ s ∈ series, Produced s := fun s hs => (hin s hs).1
  have hle : ∀ k (x : κ), PartialCompare.le k (some x) = true ↔ orank rank k ≤ rank x :=
    fun k x => by rw [hr'.le_iff (allGood_true k) (allGood_true _), orank_some]
  obtain ⟨hstrict, -⟩ := boundaries_pairwise_lt hr hin hweak
  have hkeys : (steps t series).map (·.1) = boundaries t series := by
    simp [steps, Function.comp_def]
  refine ⟨fun k => hkeys ▸ mem_boundaries hk k, hkeys ▸ hstrict, fun p hp => ?_,
    fun combine => ⟨_, merge_eq_ok hr hin hweak combine, fun x => ?_⟩⟩
  · obtain ⟨k, -, rfl⟩ := List.mem_map.1 hp
    rfl
  · -- the merged value at `x` is the combination at the last boundary at or below `x`
    rw [apply_cleanse_boundaries hr' hinj hk hω hstrict combine x]
    cases hlast : ((boundaries t series).filter fun k => PartialCompare.le k (some x)).getLast? with
    | none =>
      -- no boundary, hence no input key, lies at or below `x`
      have hbelow : ¬ ∃ s ∈ series, ∃ k ∈ s.keys, orank rank k ≤ rank x := by
        rintro ⟨s, hs, k, hks, hkx⟩
        have hkf : k ∈ (boundaries t series).filter fun k => PartialCompare.le k (some x) :=
          List.mem_filter.2 ⟨(mem_boundaries hk k).2 ⟨s, hs, hks⟩, (hle k x).2 hkx⟩
        simp [List.getLast?_eq_none_iff.1 hlast] at hkf
      exact ⟨fun h => absurd h hbelow, fun _ => rfl⟩
    | some kstar =>
      have habove : ∃ s ∈ series, ∃ k ∈ s.keys, orank rank k ≤ rank x := by
        obtain ⟨hkb, hkx⟩ := List.mem_filter.1 (List.mem_of_getLast? hlast)
        obtain ⟨s, hs, hks⟩ := (mem_boundaries hk kstar).1 hkb
        exact ⟨s, hs, kstar, hks, (hle kstar x).1 hkx⟩
      refine ⟨fun _ => ?_, fun h => absurd habove h⟩
      simp only [Option.map_some, Option.getD_some]
      exact congrArg combine (List.map_congr_left (applyAt_last_boundary hr' hk hprod hstrict hlast))

end Pointwise

/-- Two double series merge at every tolerance; two word series, one with a default, merge
into the series that gives at `2` the first present value of the inputs there. -/
theorem merge_combines_pointwise_examples :
    (∀ t : Tolerance, ∃ m, merge t (fun vs => vs.findSome? id)
        [(⟨[(some (1.5 : Float), some (1.0 : Float)), (some 2.5, some 2.0)]⟩ : Series Float Float),
          ⟨[(none, some 0.0), (some 2.0, some 3.0)]⟩] = .ok m) ∧
      RankedOn (fun _ : Int64 => True) Int64.toInt ∧
      ∃ m, merge Tolerance.exact (fun vs => vs.findSome? id)
          [(⟨[(none, some (1 : Int64)), (some (2 : Int64), some 5)]⟩ : Series Int64 Int64),
            ⟨[(some 1, some 3), (some 3, some 4)]⟩] = .ok m ∧
        m.apply 2 = [(⟨[(none, some (1 : Int64)), (some (2 : Int64), some 5)]⟩ : Series Int64 Int64).apply 2,
          (⟨[(some 1, some 3), (some 3, some 4)]⟩ : Series Int64 Int64).apply 2].findSome? id := by
  have hinF : ∀ s ∈ [(⟨[(some (1.5 : Float), some (1.0 : Float)), (some 2.5, some 2.0)]⟩ :
      Series Float Float), ⟨[(none, some 0.0), (some 2.0, some 3.0)]⟩],
      Produced s ∧ ∀ k ∈ s.keys, AllGood (fun x : Float => x.isNaN = false) k := by
    intro s hs
    simp only [List.mem_cons, List.not_mem_nil, or_false] at hs
    rcases hs with rfl | rfl
    · exact ⟨Produced.build (show build Tolerance.exact
        [(some (1.5 : Float), some (1.0 : Float)), (some 2.5, some 2.0)] = .ok ⟨_⟩ from rfl), by decide⟩
    · exact ⟨Produced.build (show build Tolerance.exact
        [(none, some (0.0 : Float)), (some (2.0 : Float), some 3.0)] = .ok ⟨_⟩ from rfl), by decide⟩
  have hinW : ∀ s ∈ [(⟨[(none, some (1 : Int64)), (some (2 : Int64), some 5)]⟩ : Series Int64 Int64),
      ⟨[(some 1, some 3), (some 3, some 4)]⟩],
      Produced s ∧ ∀ k ∈ s.keys, AllGood (fun _ : Int64 => True) k := by
    intro s hs
    simp only [List.mem_cons, List.not_mem_nil, or_false] at hs
    rcases hs with rfl | rfl
    · exact ⟨Produced.build (show build Tolerance.exact
        [(none, some (1 : Int64)), (some (2 : Int64), some 5)] = .ok ⟨_⟩ from rfl),
        fun k _ => allGood_true k⟩
    · exact ⟨Produced.build (show build Tolerance.exact
        [(some (1 : Int64), some (3 : Int64)), (some 3, some 4)] = .ok ⟨_⟩ from rfl),
        fun k _ => allGood_true k⟩
  obtain ⟨-, -, -, hpoint⟩ := (merge_combines_pointwise rankedOn_toInt hinW).2 (fun _ => trivial)
    (fun _ _ => Int64.toInt_inj.1) Tolerance.exact (exactOn_int64 _) (exactOn_int64 _)
  obtain ⟨m, hm, hx⟩ := hpoint fun vs => vs.findSome? id
  refine ⟨fun t => (merge_combines_pointwise Binary64.rankedOn_not_nan hinF).1 t _
      fun a b ha hb h => Binary64.weakEq_of_rank_eq t ha hb h,
    rankedOn_toInt, m, hm, (hx 2).1 ⟨_, List.mem_cons_self, none, by simp [keys], by simp⟩⟩

end Series

end LazySeq
