import Mathlib
import LazySeq.Proofs.Series.MergeLists
import LazySeq.Proofs.Series.Ranked
import LazySeq.Proofs.Series.StepFunction
import LazySeq.Proofs.Stream.Yields
import LazySeq.Stream.Merge

/-!
# The merge by least head is a stable merge

A merge whose selector names the least head, the first of equal ones, interleaves sorted inputs
into one sorted output in which every input keeps its order and, of equal elements, the one from
the lower input comes first. The output is described with each element tagged by the index of
its input (`stableMerge`): sorted by the measure and then by the tag (`stableMerge_sorted`), each
tag's elements are its input in order (`filter_stableMerge`), and the untagged output is a
permutation of all the elements (`perm_stableMerge`).

A weak merge hands out the whole of it; a strong merge stops after the first element that uses
up its input (`untilExhausted`), and hands out nothing when an input is empty from the start.
Both are shown by one invariant over the merge's state (`MergeState.Pending`): the lists still
to come, each input's head first, read as heads and the rest once the merge has looked at its
inputs. One step of the merge is one step of `stableMerge` (`Merge.tryNext_pending`).

Main statement: `merge_minHeadBy_stable`, for `minHeadBy key` (and so for `minHead`, which is
`minHeadBy id`) over keys that compare as a linear order.
-/

namespace LazySeq

variable {σ α κ β : Type}

/-! ## The merge with each element tagged by its list -/

section Tagged

variable (cmp : α → α → Ordering)

/-- The merge of `lists` by least head, each element tagged with the index of its list. -/
def mergeTagged : ℕ → List (List α) → List (ℕ × α)
  | 0, _ => []
  | fuel + 1, lists =>
    match selectMinBy cmp (lists.map List.head?) with
    | none => []
    | some i =>
      match lists[i]? with
      | some (a :: rest) => (i, a) :: mergeTagged fuel (lists.set i rest)
      | _ => []

/-- The stable merge of `lists`: all their elements, each tagged with the index of its list. -/
def stableMerge (lists : List (List α)) : List (ℕ × α) :=
  mergeTagged cmp (lists.flatten.length + 1) lists

/-- The prefix of a tagged merge up to the first element after which no element of its list
follows: where a merge that needs every list stops. -/
def untilExhausted : List (ℕ × α) → List (ℕ × α)
  | [] => []
  | p :: rest => if rest.any (·.1 == p.1) then p :: untilExhausted rest else [p]

theorem mergeTagged_succ (fuel : ℕ) {lists : List (List α)} {i : ℕ} {a : α} {rest : List α}
    (hsel : selectMinBy cmp (lists.map List.head?) = some i) (hi : lists[i]? = some (a :: rest)) :
    mergeTagged cmp (fuel + 1) lists = (i, a) :: mergeTagged cmp fuel (lists.set i rest) := by
  simp [mergeTagged, hsel, hi]

theorem mergeTagged_of_none (fuel : ℕ) {lists : List (List α)}
    (hsel : selectMinBy cmp (lists.map List.head?) = none) : mergeTagged cmp fuel lists = [] := by
  cases fuel <;> simp [mergeTagged, hsel]

/-- Untagged, the tagged merge is the merge. -/
theorem map_snd_mergeTagged :
    ∀ (fuel : ℕ) (lists : List (List α)),
      (mergeTagged cmp fuel lists).map Prod.snd = mergeLists cmp fuel lists
  | 0, _ => rfl
  | fuel + 1, lists => by
    cases hsel : selectMinBy cmp (lists.map List.head?) with
    | none => simp [mergeTagged_of_none cmp _ hsel, mergeLists, hsel]
    | some i =>
      obtain ⟨a, rest, hi, hstep⟩ := mergeLists_succ_of_select cmp fuel hsel
      rw [mergeTagged_succ cmp fuel hsel hi, hstep, List.map_cons, map_snd_mergeTagged fuel]

theorem getD_set_self {lists : List (List α)} {i : ℕ} (rest : List α) (h : i < lists.length) :
    (lists.set i rest).getD i [] = rest := by
  rw [List.getD_eq_getElem?_getD, List.getElem?_set_self h, Option.getD_some]

theorem getD_set_ne {lists : List (List α)} {i j : ℕ} (rest : List α) (h : i ≠ j) :
    (lists.set i rest).getD j [] = lists.getD j [] := by
  rw [List.getD_eq_getElem?_getD, List.getD_eq_getElem?_getD, List.getElem?_set_ne h]

theorem exists_getElem?_of_mem_getD {lists : List (List α)} {j : ℕ} {b : α}
    (h : b ∈ lists.getD j []) : ∃ l, lists[j]? = some l ∧ b ∈ l := by
  rw [List.getD_eq_getElem?_getD] at h
  cases hl : lists[j]? with
  | none => simp [hl] at h
  | some l => exact ⟨l, rfl, by simpa [hl] using h⟩

/-- Every element of the merge comes from the list its tag names. -/
theorem mem_mergeTagged :
    ∀ (fuel : ℕ) (lists : List (List α)) (p : ℕ × α), p ∈ mergeTagged cmp fuel lists →
      p.2 ∈ lists.getD p.1 []
  | 0, _, _, h => by simp [mergeTagged] at h
  | fuel + 1, lists, p, h => by
    cases hsel : selectMinBy cmp (lists.map List.head?) with
    | none => simp [mergeTagged_of_none cmp _ hsel] at h
    | some i =>
      obtain ⟨a, rest, hi, -⟩ := mergeLists_succ_of_select cmp fuel hsel
      rw [mergeTagged_succ cmp fuel hsel hi] at h
      have hget : lists.getD i [] = a :: rest := by simp [List.getD_eq_getElem?_getD, hi]
      rcases List.mem_cons.1 h with rfl | h
      · simp [hi]
      · -- a later element comes from the lists left, which the chosen list's tail replaces
        have hp := mem_mergeTagged fuel _ p h
        by_cases hpi : p.1 = i
        · rw [hpi, hget]
          rw [hpi, getD_set_self rest (List.getElem?_eq_some_iff.1 hi).1] at hp
          exact List.mem_cons_of_mem _ hp
        · rwa [getD_set_ne rest (Ne.symm hpi)] at hp

/-- **Each list keeps its order.** With a budget beyond the number of elements, the elements
tagged `j` are the `j`-th list, in order. -/
theorem filter_mergeTagged :
    ∀ (fuel : ℕ) (lists : List (List α)), lists.flatten.length < fuel →
      ∀ j, ((mergeTagged cmp fuel lists).filter (·.1 == j)).map Prod.snd = lists.getD j []
  | 0, _, h, _ => absurd h (Nat.not_lt_zero _)
  | fuel + 1, lists, h, j => by
    cases hsel : selectMinBy cmp (lists.map List.head?) with
    | none =>
      -- no list has a head: all are empty
      have hempty : ∀ l ∈ lists, l = [] := fun l hl => by
        simpa using selectMinBy_eq_none cmp hsel l.head? (List.mem_map_of_mem hl)
      rw [mergeTagged_of_none cmp _ hsel, List.filter_nil, List.map_nil,
        List.getD_eq_getElem?_getD]
      cases hj : lists[j]? with
      | none => rfl
      | some l => exact (hempty l (List.mem_of_getElem? hj)).symm
    | some i =>
      obtain ⟨a, rest, hi, -⟩ := mergeLists_succ_of_select cmp fuel hsel
      have hlen : (lists.set i rest).flatten.length < fuel := by
        have := (flatten_perm_set hi).length_eq
        simp only [List.length_cons] at this
        omega
      have ih := filter_mergeTagged fuel _ hlen j
      have hlt : i < lists.length := (List.getElem?_eq_some_iff.1 hi).1
      rw [mergeTagged_succ cmp fuel hsel hi, List.filter_cons]
      by_cases hij : i = j
      · -- the chosen list loses its head to the output
        subst hij
        simp only [beq_self_eq_true, if_true, List.map_cons, ih, List.getD_eq_getElem?_getD,
          List.getElem?_set_self hlt, hi, Option.getD_some]
      · have hne : (i == j) = false := beq_false_of_ne hij
        simp only [hne, Bool.false_eq_true, if_false, ih, getD_set_ne rest hij]

variable [LinearOrder β] {P : α → Prop} {f : α → β}
  (hcmp : ∀ a b, P a → P b → cmp a b = compare (f a) (f b))
include hcmp

/-- **Ties go to the lower list.** Over lists sorted by `f`, the merge is sorted by `f` and, among
elements of equal `f`, by the index of their list. -/
theorem mergeTagged_sorted :
    ∀ (fuel : ℕ) (lists : List (List α)),
      (∀ l ∈ lists, (∀ a ∈ l, P a) ∧ l.Pairwise (fun a b => f a ≤ f b)) →
      (mergeTagged cmp fuel lists).Pairwise
        (fun p q => f p.2 < f q.2 ∨ (f p.2 = f q.2 ∧ p.1 ≤ q.1))
  | 0, _, _ => by simp [mergeTagged]
  | fuel + 1, lists, hl => by
    cases hsel : selectMinBy cmp (lists.map List.head?) with
    | none => simp [mergeTagged_of_none cmp _ hsel]
    | some i =>
      obtain ⟨a, rest, hi, -⟩ := mergeLists_succ_of_select cmp fuel hsel
      have hmem : a :: rest ∈ lists := List.mem_of_getElem? hi
      have hP : ∀ h ∈ lists.map List.head?, ∀ b ∈ h, P b := fun h hh b hb => by
        obtain ⟨l, hl', rfl⟩ := List.mem_map.1 hh
        exact (hl l hl').1 b (List.mem_of_mem_head? hb)
      -- the head taken is at or below every head, and strictly below every head before it
      obtain ⟨a', ha', hmin⟩ := selectMinBy_le cmp hcmp hP hsel
      obtain ⟨a'', ha'', hfirst⟩ := selectMinBy_lt_of_lt cmp hcmp hP hsel
      have haa : a' = a := by simpa [hi] using ha'.symm
      have haa' : a'' = a := by simpa [hi] using ha''.symm
      rw [haa] at hmin
      rw [haa'] at hfirst
      have hl2 : ∀ l ∈ lists.set i rest, (∀ a ∈ l, P a) ∧ l.Pairwise (fun a b => f a ≤ f b) := by
        intro l hl'
        rcases List.mem_or_eq_of_mem_set hl' with hl'' | rfl
        · exact hl l hl''
        · exact ⟨fun b hb => (hl _ hmem).1 b (List.mem_cons_of_mem _ hb), (hl _ hmem).2.of_cons⟩
      rw [mergeTagged_succ cmp fuel hsel hi]
      refine List.Pairwise.cons (fun q hq => ?_) (mergeTagged_sorted fuel _ hl2)
      have hq := mem_mergeTagged cmp fuel _ q hq
      -- `q` comes from list `q.1` of the lists left
      rcases lt_trichotomy q.1 i with hqi | rfl | hqi
      · -- an earlier list: its head lies strictly above the head taken
        rw [getD_set_ne rest hqi.ne'] at hq
        obtain ⟨l, hlq, hq'⟩ := exists_getElem?_of_mem_getD hq
        have hlmem : l ∈ lists := List.mem_of_getElem? hlq
        obtain ⟨b, rest', rfl⟩ : ∃ b rest', l = b :: rest' := List.exists_cons_of_ne_nil
          (List.ne_nil_of_mem hq')
        have hab : f a < f b := hfirst q.1 hqi b (by simp [hlq])
        exact .inl (hab.trans_le (le_of_le_head? (hl _ hlmem).2 (by simp) q.2 hq'))
      · -- the chosen list: its rest lies at or above its head
        have hq' : q.2 ∈ rest := by
          rwa [getD_set_self rest (List.getElem?_eq_some_iff.1 hi).1] at hq
        have hle : f a ≤ f q.2 := List.rel_of_pairwise_cons (hl _ hmem).2 hq'
        rcases hle.lt_or_eq with hlt | heq
        · exact .inl hlt
        · exact .inr ⟨heq, le_rfl⟩
      · -- a later list: its head lies at or above the head taken
        rw [getD_set_ne rest hqi.ne] at hq
        obtain ⟨l, hlq, hq'⟩ := exists_getElem?_of_mem_getD hq
        have hlmem : l ∈ lists := List.mem_of_getElem? hlq
        have hle : f a ≤ f q.2 := le_of_le_head? (hl _ hlmem).2
          (fun b hb => hmin l.head? (List.mem_map_of_mem hlmem) b hb) q.2 hq'
        rcases hle.lt_or_eq with hlt | heq
        · exact .inl hlt
        · exact .inr ⟨heq, hqi.le⟩

end Tagged

/-! ## The stable merge -/

section Stable

variable (cmp : α → α → Ordering) {lists : List (List α)}

theorem stableMerge_of_select {i : ℕ} {a : α} {rest : List α}
    (hsel : selectMinBy cmp (lists.map List.head?) = some i) (hi : lists[i]? = some (a :: rest)) :
    stableMerge cmp lists = (i, a) :: stableMerge cmp (lists.set i rest) := by
  have hlen : lists.flatten.length = (lists.set i rest).flatten.length + 1 := by
    simpa using (flatten_perm_set hi).length_eq
  rw [stableMerge, mergeTagged_succ cmp _ hsel hi, hlen, stableMerge]

theorem stableMerge_of_none (hsel : selectMinBy cmp (lists.map List.head?) = none) :
    stableMerge cmp lists = [] :=
  mergeTagged_of_none cmp _ hsel

/-- A stable merge that goes on starts with the head the selector names, and goes on as the
stable merge of the lists with that head taken off. -/
theorem stableMerge_eq_cons {p : ℕ × α} {T : List (ℕ × α)} (h : stableMerge cmp lists = p :: T) :
    ∃ rest, selectMinBy cmp (lists.map List.head?) = some p.1 ∧
      lists[p.1]? = some (p.2 :: rest) ∧ T = stableMerge cmp (lists.set p.1 rest) := by
  cases hsel : selectMinBy cmp (lists.map List.head?) with
  | none =>
    rw [stableMerge_of_none cmp hsel] at h
    cases h
  | some i =>
    -- the named head is present, so its list is that head and a rest
    obtain ⟨a, ha⟩ := selectMinBy_getElem? cmp hsel
    rw [List.getElem?_map] at ha
    obtain ⟨l, hl, hla⟩ := Option.map_eq_some_iff.1 ha
    obtain ⟨rest, rfl⟩ := List.head?_eq_some_iff.1 hla
    rw [stableMerge_of_select cmp hsel hl] at h
    obtain ⟨rfl, rfl⟩ := List.cons_eq_cons.1 h
    exact ⟨rest, rfl, hl, rfl⟩

/-- The stable merge holds every element once. -/
theorem perm_stableMerge (lists : List (List α)) :
    ((stableMerge cmp lists).map Prod.snd).Perm lists.flatten := by
  rw [stableMerge, map_snd_mergeTagged]
  exact mergeLists_perm cmp _ lists (Nat.lt_succ_self _)

theorem filter_stableMerge (lists : List (List α)) (j : ℕ) :
    ((stableMerge cmp lists).filter (·.1 == j)).map Prod.snd = lists.getD j [] :=
  filter_mergeTagged cmp _ lists (Nat.lt_succ_self _) j

theorem length_stableMerge (lists : List (List α)) :
    (stableMerge cmp lists).length = lists.flatten.length := by
  rw [← (perm_stableMerge cmp lists).length_eq, List.length_map]

theorem isEmpty_stableMerge (lists : List (List α)) :
    (stableMerge cmp lists).isEmpty = lists.all List.isEmpty := by
  have hflat : lists.flatten.isEmpty = lists.all List.isEmpty := by
    rw [Bool.eq_iff_iff]
    simp
  rw [← hflat, Bool.eq_iff_iff, List.isEmpty_iff_length_eq_zero, List.isEmpty_iff_length_eq_zero,
    length_stableMerge]

/-- Elements tagged `j` are still to come exactly when the `j`-th list is not empty. -/
theorem any_tag_stableMerge (lists : List (List α)) (j : ℕ) :
    (stableMerge cmp lists).any (·.1 == j) = !(lists.getD j []).isEmpty := by
  have hany : ∀ T : List (ℕ × α), T.any (·.1 == j) = !(T.filter (·.1 == j)).isEmpty := by
    intro T
    rw [Bool.eq_iff_iff]
    simp [List.filter_eq_nil_iff]
  rw [hany, ← filter_stableMerge cmp lists j, List.isEmpty_map]

theorem stableMerge_sorted [LinearOrder β] {P : α → Prop} {f : α → β}
    (hcmp : ∀ a b, P a → P b → cmp a b = compare (f a) (f b))
    (hl : ∀ l ∈ lists, (∀ a ∈ l, P a) ∧ l.Pairwise (fun a b => f a ≤ f b)) :
    (stableMerge cmp lists).Pairwise (fun p q => f p.2 < f q.2 ∨ (f p.2 = f q.2 ∧ p.1 ≤ q.1)) :=
  mergeTagged_sorted cmp hcmp _ lists hl

/-- A merge that needs every list hands out a prefix of what a merge that needs one does. -/
theorem untilExhausted_isPrefix : ∀ T : List (ℕ × α), untilExhausted T <+: T
  | [] => List.prefix_refl []
  | p :: rest => by
    rw [untilExhausted]
    split
    · exact List.cons_prefix_cons.2 ⟨rfl, untilExhausted_isPrefix rest⟩
    · exact List.cons_prefix_cons.2 ⟨rfl, List.nil_prefix⟩

theorem isEmpty_untilExhausted (T : List (ℕ × α)) : (untilExhausted T).isEmpty = T.isEmpty := by
  cases T with
  | nil => rfl
  | cons p rest =>
    rw [untilExhausted]
    split <;> rfl

end Stable

/-! ## The merge as an input -/

section Stream

variable {inputs : List (Feed σ α)} {R : σ → List (List α) → Prop}

/-- A merge with the lists `L` still to come, one per input and each input's head first: before
it has looked at its inputs, they hold these lists; after, it holds their heads and the inputs hold
the rest. -/
def MergeState.Pending (inputs : List (Feed σ α)) (R : σ → List (List α) → Prop)
    (L : List (List α)) (p : MergeState α Unit × σ) : Prop :=
  p.1.failure = none ∧ L.length = inputs.length ∧
    ((p.1.heads = #[] ∧ R p.2 L) ∨
      (p.1.heads = (L.map List.head?).toArray ∧ R p.2 (L.map List.tail)))

/-- What `hasNext` answers over the lists `L`: whether some list (weak) or every one of at least
one list (strong) has an element. -/
def mergeAnswer (weak : Bool) (L : List (List α)) : Bool :=
  if weak then L.any (!·.isEmpty) else !L.isEmpty && L.all (!·.isEmpty)

theorem any_isSome_heads (L : List (List α)) :
    (L.map List.head?).toArray.any Option.isSome = L.any (!·.isEmpty) := by
  simp only [List.any_toArray, List.any_map, Function.comp_def]
  congr 1
  funext l
  cases l <;> rfl

theorem all_isSome_heads (L : List (List α)) :
    (L.map List.head?).toArray.all Option.isSome = L.all (!·.isEmpty) := by
  simp only [List.all_toArray, List.all_map, Function.comp_def]
  congr 1
  funext l
  cases l <;> rfl

/-- Of lists none of which is empty, replacing one leaves an empty list exactly when the
replacement is. -/
theorem any_isEmpty_set {L : List (List α)} (hE : L.any List.isEmpty = false) {i : ℕ}
    (hi : i < L.length) (rest : List α) : (L.set i rest).any List.isEmpty = rest.isEmpty := by
  rw [Bool.eq_iff_iff, List.any_eq_true]
  constructor
  · rintro ⟨l, hl, hle⟩
    rcases List.mem_or_eq_of_mem_set hl with hl | rfl
    · exact absurd hle (by simpa using List.any_eq_false.1 hE l hl)
    · exact hle
  · intro hr
    exact ⟨rest, List.mem_of_getElem? (List.getElem?_set_self hi), hr⟩

/-- A merge that has read nothing is pending on the lists its inputs hold. -/
theorem MergeState.pending_initial {L : List (List α)} {s : σ} (hL : L.length = inputs.length)
    (hs : R s L) : MergeState.Pending inputs R L (MergeState.initial (), s) :=
  ⟨rfl, hL, .inl ⟨rfl, hs⟩⟩

/-- A merge that keeps no failure and whose heads read as the heads of the lists `L` answers as
these lists. -/
theorem Merge.hasNext_of_fill (weak : Bool) {L : List (List α)} {st : MergeState α Unit}
    {s s' : σ} (hnf : st.failure = none)
    (hfill : Zip.fill inputs st.heads s = (.ok (), (L.map List.head?).toArray, s')) :
    Merge.hasNext weak inputs st s =
      (.ok (mergeAnswer weak L), { st with heads := (L.map List.head?).toArray }, s') := by
  have hempty : (L.map List.head?).toArray.isEmpty = L.isEmpty := by
    cases L <;> rfl
  rw [Merge.hasNext, if_neg (by simp [hnf]), hfill]
  dsimp only
  rw [hempty, any_isSome_heads, all_isSome_heads]
  cases weak <;> cases L <;> rfl

variable (hin : ∀ (i : ℕ) (f : Feed σ α), inputs[i]? = some f → f.YieldsAt R i)
include hin

/-- Looking at the inputs from the `k`-th on reads their heads and leaves each input its rest. -/
theorem fillFrom_heads {L : List (List α)} (hL : L.length = inputs.length) :
    ∀ (d k : ℕ), k + d = inputs.length → ∀ {s : σ} {row : Array (Option α)},
      row.toList = (L.take k).map List.head? → R s ((L.take k).map List.tail ++ L.drop k) →
      ∃ s', Zip.fillFrom (inputs.drop k) row s = (.ok (), (L.map List.head?).toArray, s') ∧
        R s' (L.map List.tail)
  | 0, k, hk, s, row, hrow, hs => by
    have hkL : L.length ≤ k := by omega
    rw [List.take_of_length_le hkL] at hrow hs
    rw [List.drop_of_length_le hkL, List.append_nil] at hs
    refine ⟨s, ?_, hs⟩
    rw [List.drop_of_length_le (by omega : inputs.length ≤ k), Zip.fillFrom, ← hrow]
  | d + 1, k, hk, s, row, hrow, hs => by
    have hk' : k < inputs.length := by omega
    have hkL : k < L.length := by omega
    -- the family the inputs read holds `L[k]` at `k`
    have hget : ((L.take k).map List.tail ++ L.drop k).getD k [] = L[k] := by
      simp [List.getD_eq_getElem?_getD, List.getElem?_append_right, Nat.min_eq_left hkL.le,
        List.getElem?_eq_getElem hkL]
    have hset : ((L.take k).map List.tail ++ L.drop k).set k L[k].tail =
        (L.take (k + 1)).map List.tail ++ L.drop (k + 1) := by
      have htk : ((L.take k).map List.tail).length = k := by simp [Nat.min_eq_left hkL.le]
      rw [List.set_append_right _ _ htk.le, htk, Nat.sub_self, List.drop_eq_getElem_cons hkL,
        List.take_add_one, List.getElem?_eq_getElem hkL, List.set_cons_zero, List.map_append,
        List.append_assoc]
      rfl
    obtain ⟨s₁, hpull, hs₁⟩ := (hin k inputs[k] (List.getElem?_eq_getElem hk')).pull hs
    rw [hget] at hpull hs₁
    rw [hset] at hs₁
    rw [List.drop_eq_getElem_cons hk', Zip.fillFrom, hpull]
    have hrow' : (row.push L[k].head?).toList = (L.take (k + 1)).map List.head? := by
      rw [Array.toList_push, hrow, List.take_add_one, List.getElem?_eq_getElem hkL, List.map_append]
      rfl
    exact fillFrom_heads hL d (k + 1) (by omega) hrow' hs₁

/-- A pending merge's heads, once read, are the heads of the lists still to come. -/
theorem fill_pending {L : List (List α)} {st : MergeState α Unit} {s : σ}
    (hp : MergeState.Pending inputs R L (st, s)) :
    ∃ s', Zip.fill inputs st.heads s = (.ok (), (L.map List.head?).toArray, s') ∧
      R s' (L.map List.tail) := by
  obtain ⟨-, hL, ⟨hh, hs⟩ | ⟨hh, hs⟩⟩ := hp
  · -- nothing read yet: every input is read, from the first
    rw [Zip.fill, hh]
    exact fillFrom_heads hin hL inputs.length 0 (Nat.zero_add _) (by simp) (by simpa using hs)
  · -- every head already read: nothing is pulled
    refine ⟨s, ?_, hs⟩
    have hsize : inputs.length ≤ st.heads.size := by
      rw [hh, List.size_toArray, List.length_map, hL]
    rw [Zip.fill, List.drop_of_length_le hsize, Zip.fillFrom, hh]

/-- Asked whether it has more, a pending merge reads the heads it lacks and answers as the lists
still to come. -/
theorem Merge.hasNext_pending (weak : Bool) {L : List (List α)} {st : MergeState α Unit} {s : σ}
    (hp : MergeState.Pending inputs R L (st, s)) :
    ∃ s', Merge.hasNext weak inputs st s =
        (.ok (mergeAnswer weak L), { st with heads := (L.map List.head?).toArray }, s') ∧
      R s' (L.map List.tail) := by
  obtain ⟨s', hfill, hs'⟩ := fill_pending hin hp
  exact ⟨s', Merge.hasNext_of_fill weak hp.1 hfill, hs'⟩

/-- **One step of the merge.** A pending merge whose selector names a present head hands that
head out, and is then pending on the lists with it taken off. -/
theorem Merge.tryNext_pending {pick : List (Option α) → Option ℕ} {weak : Bool}
    {L : List (List α)} {st : MergeState α Unit} {s : σ} {i : ℕ} {a : α} {rest : List α}
    (hp : MergeState.Pending inputs R L (st, s)) (hans : mergeAnswer weak L = true)
    (hsel : pick (L.map List.head?) = some i) (hi : L[i]? = some (a :: rest)) :
    ∃ p, Merge.tryNext (Merge.stateless pick) weak inputs st s = (.ok a, p) ∧
      MergeState.Pending inputs R (L.set i rest) p := by
  obtain ⟨s₁, hnext, hs₁⟩ := Merge.hasNext_pending hin weak hp
  have hnf : st.failure = none := hp.1
  have hiL : i < L.length := (List.getElem?_eq_some_iff.1 hi).1
  have hiI : i < inputs.length := hp.2.1 ▸ hiL
  -- the chosen input, read again, hands out the head after `a` from the tails left behind
  have hget : (L.map List.tail).getD i [] = rest := by
    simp [List.getD_eq_getElem?_getD, hi]
  obtain ⟨s₂, hpull, hs₂⟩ := (hin i inputs[i] (List.getElem?_eq_getElem hiI)).pull hs₁
  rw [hget] at hpull hs₂
  refine ⟨({ st with heads := ((L.set i rest).map List.head?).toArray }, s₂), ?_, ?_⟩
  · simp [Merge.tryNext, hnext, hans, hnf, Merge.stateless, hsel, hi, List.getElem?_eq_getElem hiI,
      hpull]
  · refine ⟨hnf, by rw [List.length_set, hp.2.1], .inr ⟨rfl, ?_⟩⟩
    show R s₂ ((L.set i rest).map List.tail)
    rw [List.map_set]
    exact hs₂

/-- **A merge that steps as a spec yields it.** When `spec` of the lists still to come is empty
exactly when the merge says it has nothing more, and every element it starts with is the head
the selector names, the merge yields `spec` of its inputs' lists. -/
theorem Merge.yields_of_spec (pick : List (Option α) → Option ℕ) (weak : Bool)
    (spec : List (List α) → List α)
    (hempty : ∀ L : List (List α), L.length = inputs.length →
      (spec L).isEmpty = !mergeAnswer weak L)
    (hstep : ∀ (L : List (List α)) (a : α) (out : List α), L.length = inputs.length →
      spec L = a :: out → ∃ i rest, pick (L.map List.head?) = some i ∧
        L[i]? = some (a :: rest) ∧ out = spec (L.set i rest)) :
    (Merge.feed (Merge.stateless pick) weak inputs).Yields
      fun p out => ∃ L, MergeState.Pending inputs R L p ∧ out = spec L where
  hasNext := by
    rintro ⟨st, s⟩ _ ⟨L, hp, rfl⟩
    obtain ⟨s', hnext, hs'⟩ := Merge.hasNext_pending hin weak hp
    refine ⟨({ st with heads := (L.map List.head?).toArray }, s'), ?_,
      L, ⟨hp.1, hp.2.1, .inr ⟨rfl, hs'⟩⟩, rfl⟩
    simp only [Merge.feed, hnext, hempty L hp.2.1, Bool.not_not]
  tryNext := by
    rintro ⟨st, s⟩ a out ⟨L, hp, hL⟩
    obtain ⟨i, rest, hsel, hi, rfl⟩ := hstep L a out hp.2.1 hL.symm
    -- a spec with an element ahead means the merge answers that it has one
    have hans : mergeAnswer weak L = true := by
      have h := hempty L hp.2.1
      rw [← hL, List.isEmpty_cons] at h
      simpa using h
    obtain ⟨p, htry, hp'⟩ := Merge.tryNext_pending hin hp hans hsel hi
    exact ⟨p, by simp only [Merge.feed, htry], L.set i rest, hp', rfl⟩

/-- A weak merge by least head yields the stable merge of the lists still to come. -/
theorem Merge.yields_stableMerge (cmp : α → α → Ordering) :
    (Merge.feed (Merge.stateless (selectMinBy cmp)) true inputs).Yields
      fun p out => ∃ L, MergeState.Pending inputs R L p ∧
        out = (stableMerge cmp L).map Prod.snd := by
  refine Merge.yields_of_spec hin _ true _ (fun L _ => ?_) (fun L a out _ h => ?_)
  · -- nothing to come exactly when every list is empty
    rw [List.isEmpty_map, isEmpty_stableMerge, Bool.eq_iff_iff]
    simp [mergeAnswer]
  · obtain ⟨p, T, hT, rfl, rfl⟩ := List.map_eq_cons_iff.1 h
    obtain ⟨rest, hsel, hi, rfl⟩ := stableMerge_eq_cons cmp hT
    exact ⟨p.1, rest, hsel, hi, rfl⟩

/-- A strong merge by least head yields the stable merge of the lists still to come up to the
first element that ends its list, and nothing when a list is empty already. -/
theorem Merge.yields_untilExhausted (cmp : α → α → Ordering) :
    (Merge.feed (Merge.stateless (selectMinBy cmp)) false inputs).Yields
      fun p out => ∃ L, MergeState.Pending inputs R L p ∧
        out = if L.any List.isEmpty then [] else (untilExhausted (stableMerge cmp L)).map Prod.snd := by
  refine Merge.yields_of_spec hin _ false _ (fun L _ => ?_) (fun L a out _ h => ?_)
  · split_ifs with hE
    · -- a list is empty: the merge says it has nothing, and the spec is empty
      simp [mergeAnswer, List.all_eq_not_any_not, hE]
    · -- every list has an element: both are empty exactly when there are no lists
      rw [List.isEmpty_map, isEmpty_untilExhausted, isEmpty_stableMerge]
      cases L with
      | nil => rfl
      | cons l L =>
        have hall : (l :: L).all (!·.isEmpty) = true := by
          rw [List.all_eq_true]
          intro x hx
          simpa using fun hxe => hE (List.any_eq_true.2 ⟨x, hx, hxe⟩)
        have hl : l.isEmpty = false := by simpa using List.all_eq_true.1 hall l (by simp)
        simp [mergeAnswer, hall, hl]
  · split_ifs at h with hE
    cases hT : stableMerge cmp L with
    | nil => rw [hT] at h; cases h
    | cons p T =>
      obtain ⟨rest, hsel, hi, hT'⟩ := stableMerge_eq_cons cmp hT
      have hiL : p.1 < L.length := (List.getElem?_eq_some_iff.1 hi).1
      -- the merge goes on after `p` exactly when `p`'s list has more
      have hany : T.any (·.1 == p.1) = !rest.isEmpty := by
        rw [hT', any_tag_stableMerge, getD_set_self rest hiL]
      have hset := any_isEmpty_set (Bool.eq_false_iff.2 hE) hiL rest
      rw [hT, untilExhausted] at h
      by_cases hmore : T.any (·.1 == p.1) = true
      · rw [if_pos hmore, List.map_cons] at h
        obtain ⟨rfl, rfl⟩ := List.cons_eq_cons.1 h
        have hr : rest.isEmpty = false := by simpa [hany] using hmore
        refine ⟨p.1, rest, hsel, hi, ?_⟩
        rw [if_neg (by rw [hset, hr]; decide), ← hT']
      · rw [if_neg hmore, List.map_cons, List.map_nil] at h
        obtain ⟨rfl, rfl⟩ := List.cons_eq_cons.1 h
        have hr : rest.isEmpty = true := by simpa [hany] using hmore
        refine ⟨p.1, rest, hsel, hi, ?_⟩
        rw [if_pos (by rw [hset, hr])]

end Stream

/-! ## The merge by least key -/

/-- **The merge by least key is a stable merge.** Over inputs that hand out lists sorted by a key
whose comparison is a linear order, there is one tagged interleaving `T` of the lists, sorted by
key and then by input, in which each input's elements come in their order: a weak merge by least
key hands out `T`, and a strong one `T` up to the first element that ends its input, or nothing
when an input is empty from the start. -/
theorem merge_minHeadBy_stable [PartialCompare κ] [LinearOrder β] {good : κ → Prop}
    {rank : κ → β} (key : α → κ) (hr : RankedOn good rank) {inputs : List (Feed σ α)}
    {R : σ → List (List α) → Prop}
    (hin : ∀ (i : ℕ) (f : Feed σ α), inputs[i]? = some f → f.YieldsAt R i)
    {lists : List (List α)} (hlen : lists.length = inputs.length)
    (hgood : ∀ l ∈ lists, ∀ a ∈ l, good (key a))
    (hsorted : ∀ l ∈ lists, l.Pairwise fun a b => rank (key a) ≤ rank (key b))
    {s : σ} (hs : R s lists) {n : ℕ} (hn : lists.flatten.length < n) :
    ∃ T : List (ℕ × α), (T.map Prod.snd).Perm lists.flatten ∧
      T.Pairwise (fun p q => rank (key p.2) < rank (key q.2) ∨
        (rank (key p.2) = rank (key q.2) ∧ p.1 ≤ q.1)) ∧
      (∀ j, (T.filter (·.1 == j)).map Prod.snd = lists.getD j []) ∧
      ((Merge.feed (Merge.stateless (minHeadBy key)) true inputs).takeAll n []
        (MergeState.initial (), s)).1 = .ok (T.map Prod.snd) ∧
      ((Merge.feed (Merge.stateless (minHeadBy key)) false inputs).takeAll n []
        (MergeState.initial (), s)).1 =
          .ok (if lists.any List.isEmpty then [] else (untilExhausted T).map Prod.snd) := by
  let cmp : α → α → Ordering := fun a b => (partialCompare (key a) (key b)).getD .eq
  -- on good keys the selector's comparison is that of the ranks
  have hcmp : ∀ a b, good (key a) → good (key b) →
      cmp a b = compare (rank (key a)) (rank (key b)) :=
    fun _ _ ha hb => hr.getD_partialCompare ha hb
  have hpick : minHeadBy key = selectMinBy cmp := rfl
  have hstart : MergeState.Pending inputs R lists (MergeState.initial (), s) :=
    MergeState.pending_initial hlen hs
  have hlenT : (stableMerge cmp lists).length < n := by rwa [length_stableMerge]
  refine ⟨stableMerge cmp lists, perm_stableMerge cmp lists,
    stableMerge_sorted cmp hcmp fun l hl => ⟨hgood l hl, hsorted l hl⟩,
    filter_stableMerge cmp lists, ?_, ?_⟩
  · rw [hpick]
    exact (Merge.yields_stableMerge hin cmp).takeAll_nil ⟨lists, hstart, rfl⟩
      (by rwa [List.length_map])
  · rw [hpick]
    refine (Merge.yields_untilExhausted hin cmp).takeAll_nil ⟨lists, hstart, rfl⟩ ?_
    split_ifs
    · exact Nat.zero_lt_of_lt hn
    · rw [List.length_map]
      exact lt_of_le_of_lt (untilExhausted_isPrefix _).length_le hlenT

/-- Two sorted inputs of integers, the second used up first: the weak merge hands out all six,
the strong one the stable merge up to the `2` that ends the second input. -/
theorem merge_minHeadBy_stable_two_inputs :
    ∃ T : List (ℕ × Int64), T.map Prod.snd = [0, 1, 2, 3, 5, 7] ∧
      ((Merge.feed (Merge.stateless (minHeadBy id)) true ((List.range 2).map Feed.nth)).takeAll 8
        [] (MergeState.initial (), [[1, 3, 5, 7], [0, 2]])).1 = .ok (T.map Prod.snd) ∧
      ((Merge.feed (Merge.stateless (minHeadBy id)) false ((List.range 2).map Feed.nth)).takeAll 8
        [] (MergeState.initial (), [[1, 3, 5, 7], [0, 2]])).1 =
          .ok ((untilExhausted T).map Prod.snd) := by
  obtain ⟨T, -, -, -, hweak, hstrong⟩ := merge_minHeadBy_stable id Series.rankedOn_toInt
    (Feed.yieldsAt_nths 2) (by decide : ([[1, 3, 5, 7], [0, 2]] : List (List Int64)).length = 2)
    (fun _ _ _ _ => trivial) (by decide) rfl (by decide : 6 < 8)
  have hrun : ((Merge.feed (Merge.stateless (minHeadBy id)) true
      ((List.range 2).map Feed.nth)).takeAll 8 []
        (MergeState.initial (), ([[1, 3, 5, 7], [0, 2]] : List (List Int64)))).1 =
      .ok [0, 1, 2, 3, 5, 7] := by
    cbv
  refine ⟨T, ?_, hweak, ?_⟩
  · rw [hweak] at hrun
    exact Except.ok.inj hrun
  · rw [hstrong]
    rfl

end LazySeq
