import LazySeq.Series.Basic
import Mathlib.Order.WithBot
import Mathlib.Data.List.Chain

/-!
# Keys ordered by a rank

Keys compare partially: a double that is not a number compares with nothing. On a set of keys
where the comparison is that of a linear order, carried there by a *rank* (a word or a text is
its own rank; a double that is a number is ranked by its place on the number line), every order
test of `PartialCompare` is the test of that order, and an absent key sits below all present
ones.

`RankedOn good rank` says so of the keys satisfying `good`; `orank` ranks a key that may be
absent. The series proofs need nothing else of keys: a list whose neighbours pass the test that
`Series.ofCleansed` makes (`isChain_of_any_zip_tail`) increases strictly throughout
(`RankedOn.pairwise_lt_of_isChain`).
-/

namespace LazySeq

variable {κ β : Type}

/-- On the keys satisfying `good`, the comparison is that of `rank`. -/
def RankedOn [PartialCompare κ] [LinearOrder β] (good : κ → Prop) (rank : κ → β) : Prop :=
  ∀ a b, good a → good b → partialCompare a b = some (compare (rank a) (rank b))

/-- The rank of a key that may be absent: absent is below everything. -/
def orank (rank : κ → β) : Option κ → WithBot β
  | none => ⊥
  | some a => (rank a : WithBot β)

@[simp] theorem orank_none (rank : κ → β) : orank rank none = ⊥ := rfl

@[simp] theorem orank_some (rank : κ → β) (a : κ) : orank rank (some a) = (rank a : WithBot β) :=
  rfl

/-- A key ranked at or above a present rank is present. -/
theorem isSome_of_coe_le_orank [Preorder β] {rank : κ → β} {a : β} {k : Option κ}
    (h : (a : WithBot β) ≤ orank rank k) : k.isSome = true := by
  cases k with
  | none => exact absurd h (by simp)
  | some _ => rfl

/-- Every key present is good. -/
def AllGood (good : κ → Prop) (k : Option κ) : Prop := ∀ x ∈ k, good x

@[simp] theorem allGood_none (good : κ → Prop) : AllGood good none := by simp [AllGood]

@[simp] theorem allGood_some (good : κ → Prop) (a : κ) : AllGood good (some a) ↔ good a := by
  simp [AllGood]

@[simp] theorem allGood_true (k : Option κ) : AllGood (fun _ => True) k := by simp [AllGood]

theorem orank_injective {rank : κ → β} (h : Function.Injective rank) :
    Function.Injective (orank rank) := by
  intro a b hab
  cases a <;> cases b <;> simp_all [WithBot.coe_inj, h.eq_iff]

instance {good : κ → Prop} [DecidablePred good] : DecidablePred (AllGood good) := fun k =>
  decidable_of_iff (∀ x ∈ k.toList, good x) (by simp [AllGood])

/-- Two comparisons agree when their strict tests do. -/
theorem compare_eq_compare {α γ : Type} [LinearOrder α] [LinearOrder γ] {a b : α} {c d : γ}
    (hlt : a < b ↔ c < d) (hgt : b < a ↔ d < c) : compare a b = compare c d := by
  rcases lt_trichotomy a b with h | rfl | h
  · rw [compare_lt_iff_lt.2 h, compare_lt_iff_lt.2 (hlt.1 h)]
  · have hcd : c = d := le_antisymm (not_lt.1 fun h' => (lt_irrefl a) (hgt.2 h'))
      (not_lt.1 fun h' => (lt_irrefl a) (hlt.2 h'))
    rw [compare_eq_iff_eq.2 rfl, compare_eq_iff_eq.2 hcd]
  · rw [compare_gt_iff_gt.2 h, compare_gt_iff_gt.2 (hgt.1 h)]

/-! ## The order tests on ranked keys -/

section Tests

variable [PartialCompare κ] [LinearOrder β] {good : κ → Prop} {rank : κ → β} (hr : RankedOn good rank)
include hr

/-- Keys that are all good are all ranked. -/
theorem RankedOn.of_forall (hall : ∀ a, good a) : RankedOn (fun _ => True) rank :=
  fun a b _ _ => hr a b (hall a) (hall b)

/-- Present keys compare by their ranks. -/
theorem RankedOn.partialCompare_some {a b : κ} (ha : good a) (hb : good b) :
    partialCompare (some a) (some b) = some (compare (rank a) (rank b)) :=
  hr a b ha hb

/-- On good keys, the comparison that counts incomparable keys as equal is that of the ranks. -/
theorem RankedOn.getD_partialCompare {a b : κ} (ha : good a) (hb : good b) :
    (partialCompare a b).getD .eq = compare (rank a) (rank b) := by
  rw [hr a b ha hb, Option.getD_some]

/-- Keys that may be absent compare by rank, an absent key lowest. -/
theorem RankedOn.partialCompare_option {a b : Option κ} (ha : AllGood good a)
    (hb : AllGood good b) :
    partialCompare a b = some (compare (orank rank a) (orank rank b)) := by
  cases a with
  | none =>
    cases b with
    | none => exact congrArg some (compare_eq_iff_eq.2 rfl).symm
    | some y => exact congrArg some (compare_lt_iff_lt.2 (WithBot.bot_lt_coe _)).symm
  | some x =>
    cases b with
    | none => exact congrArg some (compare_gt_iff_gt.2 (WithBot.bot_lt_coe _)).symm
    | some y =>
      rw [hr.partialCompare_some (by simpa using ha) (by simpa using hb), orank_some, orank_some]
      exact congrArg some (compare_eq_compare WithBot.coe_lt_coe.symm WithBot.coe_lt_coe.symm)

theorem RankedOn.lt_iff {a b : Option κ} (ha : AllGood good a) (hb : AllGood good b) :
    PartialCompare.lt a b = true ↔ orank rank a < orank rank b := by
  cases a with
  | none => cases b <;> simp [PartialCompare.lt, partialCompare, WithBot.bot_lt_coe]
  | some x =>
    cases b with
    | none => simp [PartialCompare.lt, partialCompare]
    | some y =>
      rw [PartialCompare.lt, hr.partialCompare_some (by simpa using ha) (by simpa using hb)]
      simp [compare_lt_iff_lt]

theorem RankedOn.le_iff {a b : Option κ} (ha : AllGood good a) (hb : AllGood good b) :
    PartialCompare.le a b = true ↔ orank rank a ≤ orank rank b := by
  cases a with
  | none => cases b <;> simp [PartialCompare.le, partialCompare]
  | some x =>
    cases b with
    | none => simp [PartialCompare.le, partialCompare]
    | some y =>
      rw [PartialCompare.le, hr.partialCompare_some (by simpa using ha) (by simpa using hb)]
      simp only [orank_some, WithBot.coe_le_coe]
      cases h : compare (rank x) (rank y)
      · simpa using le_of_lt (compare_lt_iff_lt.1 h)
      · simpa using le_of_eq (compare_eq_iff_eq.1 h)
      · simpa using compare_gt_iff_gt.1 h

theorem RankedOn.ge_iff {a b : Option κ} (ha : AllGood good a) (hb : AllGood good b) :
    PartialCompare.ge a b = true ↔ orank rank b ≤ orank rank a := by
  cases a with
  | none => cases b <;> simp [PartialCompare.ge, partialCompare]
  | some x =>
    cases b with
    | none => simp [PartialCompare.ge, partialCompare]
    | some y =>
      rw [PartialCompare.ge, hr.partialCompare_some (by simpa using ha) (by simpa using hb)]
      simp only [orank_some, WithBot.coe_le_coe]
      cases h : compare (rank x) (rank y)
      · simpa using compare_lt_iff_lt.1 h
      · simpa using le_of_eq (compare_eq_iff_eq.1 h).symm
      · simpa using le_of_lt (compare_gt_iff_gt.1 h)

/-- The tests on present keys are those of their ranks. -/
theorem RankedOn.lt_iff_rank {a b : κ} (ha : good a) (hb : good b) :
    PartialCompare.lt a b = true ↔ rank a < rank b := by
  have h := hr.lt_iff ((allGood_some good a).2 ha) ((allGood_some good b).2 hb)
  rwa [orank_some, orank_some, WithBot.coe_lt_coe] at h

theorem RankedOn.le_iff_rank {a b : κ} (ha : good a) (hb : good b) :
    PartialCompare.le a b = true ↔ rank a ≤ rank b := by
  have h := hr.le_iff ((allGood_some good a).2 ha) ((allGood_some good b).2 hb)
  rwa [orank_some, orank_some, WithBot.coe_le_coe] at h

theorem RankedOn.ge_iff_rank {a b : κ} (ha : good a) (hb : good b) :
    PartialCompare.ge a b = true ↔ rank b ≤ rank a := by
  have h := hr.ge_iff ((allGood_some good a).2 ha) ((allGood_some good b).2 hb)
  rwa [orank_some, orank_some, WithBot.coe_le_coe] at h

/-- A key that is not at or above the next is below it: ranked keys never fail to compare. -/
theorem RankedOn.lt_of_ge_eq_false {a b : Option κ} (ha : AllGood good a) (hb : AllGood good b)
    (h : PartialCompare.ge a b = false) : PartialCompare.lt a b = true := by
  rw [hr.lt_iff ha hb]
  have : ¬ orank rank b ≤ orank rank a := by
    rw [← hr.ge_iff ha hb]
    simp [h]
  exact lt_of_not_ge this

theorem RankedOn.lt_trans {a b c : Option κ} (ha : AllGood good a) (hb : AllGood good b)
    (hc : AllGood good c) (hab : PartialCompare.lt a b = true) (hbc : PartialCompare.lt b c = true) :
    PartialCompare.lt a c = true :=
  (hr.lt_iff ha hc).2 (((hr.lt_iff ha hb).1 hab).trans ((hr.lt_iff hb hc).1 hbc))

/-- **Neighbours checked, all keys in order.** Keys whose neighbours pass the test of
`Series.ofCleansed` strictly increase throughout, when they are ranked. -/
theorem RankedOn.pairwise_lt_of_isChain :
    ∀ {ks : List (Option κ)}, (∀ k ∈ ks, AllGood good k) →
      ks.IsChain (fun a b => PartialCompare.ge a b = false) →
      ks.Pairwise (fun a b => PartialCompare.lt a b = true)
  | [], _, _ => List.Pairwise.nil
  | [_], _, _ => List.pairwise_singleton _ _
  | a :: b :: rest, hg, hc => by
    rw [List.isChain_cons_cons] at hc
    have hab := hr.lt_of_ge_eq_false (hg a (by simp)) (hg b (by simp)) hc.1
    have ih := RankedOn.pairwise_lt_of_isChain (fun k hk => hg k (List.mem_cons_of_mem _ hk)) hc.2
    refine List.Pairwise.cons (fun c hcm => ?_) ih
    rcases List.mem_cons.1 hcm with rfl | hcr
    · exact hab
    · exact hr.lt_trans (hg a (by simp)) (hg b (by simp)) (hg c (by simp [hcr])) hab
        (List.rel_of_pairwise_cons ih hcr)

end Tests

/-! ## The neighbour test of `ofCleansed` -/

/-- No pair of neighbours passes `r`: the test `ofCleansed` makes of keyed entries. -/
theorem isChain_of_any_zip_tail {α : Type} (r : α → α → Bool) :
    ∀ {l : List α}, (l.zip l.tail).any (fun p => r p.1 p.2) = false →
      l.IsChain (fun a b => r a b = false)
  | [], _ => List.IsChain.nil
  | [_], _ => List.IsChain.singleton _
  | a :: b :: rest, h => by
    simp only [List.tail_cons, List.zip_cons_cons, List.any_cons, Bool.or_eq_false_iff] at h
    exact List.IsChain.cons_cons h.1 (isChain_of_any_zip_tail r (by simpa using h.2))

/-- A list whose neighbours never pass `r` passes the test `ofCleansed` makes. -/
theorem any_zip_tail_of_isChain {α : Type} (r : α → α → Bool) :
    ∀ {l : List α}, l.IsChain (fun a b => r a b = false) →
      (l.zip l.tail).any (fun p => r p.1 p.2) = false
  | [], _ => rfl
  | [_], _ => rfl
  | a :: b :: rest, h => by
    rw [List.isChain_cons_cons] at h
    have ih := any_zip_tail_of_isChain r h.2
    simp only [List.tail_cons, List.zip_cons_cons, List.any_cons, Bool.or_eq_false_iff]
    exact ⟨h.1, by simpa using ih⟩

end LazySeq
