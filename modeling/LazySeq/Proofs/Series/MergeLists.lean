import LazySeq.Series.Basic
import Mathlib

/-!
# The merge of sorted lists

`mergeLists cmp fuel lists` repeatedly takes the least head (the first of equal heads, found by
`selectMinBy`) and moves on in that list. Where `cmp` compares by a measure `f` into a linear
order (on the elements satisfying `P`), the output is sorted by `f` and every element of it
comes from some list (`mergeLists_sorted`); with fuel beyond the number of elements, it is a
permutation of all of them (`mergeLists_perm`), whatever `cmp` does.

**Main statements.** `mergeLists_sorted`, `mergeLists_perm`.
-/

namespace LazySeq

variable {α γ : Type}

/-! ## Choosing the least head -/

section Select

variable (cmp : α → α → Ordering)

/-- The search only ever holds a present head, with its index. -/
theorem selectMinBy_go_mem :
    ∀ (hs : List (Option α)) (i : Nat) (best : Option (Nat × α)) (r : Nat × α),
      selectMinBy.go cmp hs i best = some r →
        some r = best ∨ ∃ k, hs[k]? = some (some r.2) ∧ r.1 = i + k
  | [], _, _, _, h => .inl h.symm
  | none :: hs, i, best, r, h => by
    rcases selectMinBy_go_mem hs (i + 1) best r h with hb | ⟨k, hk, hr⟩
    · exact .inl hb
    · exact .inr ⟨k + 1, by simpa using hk, by omega⟩
  | some a :: hs, i, best, r, h => by
    -- whichever of `a` and `best` the search keeps, it is `best` or a head of the list
    have hnew : ∀ best', (best' = some (i, a) ∨ best' = best) →
        selectMinBy.go cmp hs (i + 1) best' = some r →
          some r = best ∨ ∃ k, (some a :: hs)[k]? = some (some r.2) ∧ r.1 = i + k := by
      intro best' hbest' h'
      rcases selectMinBy_go_mem hs (i + 1) best' r h' with hb | ⟨k, hk, hr⟩
      · rcases hbest' with rfl | rfl
        · obtain rfl : r = (i, a) := Option.some_inj.1 hb
          exact .inr ⟨0, by simp, by simp⟩
        · exact .inl hb
      · exact .inr ⟨k + 1, by simpa using hk, by omega⟩
    simp only [selectMinBy.go] at h
    split at h
    · split at h
      · exact hnew _ (.inl rfl) h
      · exact hnew _ (.inr rfl) h
    · exact hnew _ (.inl rfl) h

/-- The search ends empty-handed only on absent heads. -/
theorem selectMinBy_go_eq_none :
    ∀ (hs : List (Option α)) (i : Nat) (best : Option (Nat × α)),
      selectMinBy.go cmp hs i best = none → best = none ∧ ∀ h ∈ hs, h = none
  | [], _, _, h => ⟨h, by simp⟩
  | none :: hs, i, best, h => by
    obtain ⟨hb, hhs⟩ := selectMinBy_go_eq_none hs (i + 1) best h
    exact ⟨hb, by simpa using hhs⟩
  | some a :: hs, i, best, h => by
    simp only [selectMinBy.go] at h
    split at h
    · split at h
      · exact absurd (selectMinBy_go_eq_none hs _ _ h).1 (by simp)
      · exact absurd (selectMinBy_go_eq_none hs _ _ h).1 (by simp)
    · exact absurd (selectMinBy_go_eq_none hs _ _ h).1 (by simp)

theorem selectMinBy_eq_none {hs : List (Option α)} (h : selectMinBy cmp hs = none) :
    ∀ x ∈ hs, x = none := by
  unfold selectMinBy at h
  exact (selectMinBy_go_eq_none cmp hs 0 none (by simpa using h)).2

/-- The chosen index holds a present head. -/
theorem selectMinBy_getElem? {hs : List (Option α)} {i : Nat} (h : selectMinBy cmp hs = some i) :
    ∃ a, hs[i]? = some (some a) := by
  unfold selectMinBy at h
  obtain ⟨⟨j, a⟩, hr, rfl⟩ := Option.map_eq_some_iff.1 h
  rcases selectMinBy_go_mem cmp hs 0 none _ hr with hb | ⟨k, hk, hj⟩
  · cases hb
  · simp only [zero_add] at hj
    subst hj
    exact ⟨a, hk⟩

variable [LinearOrder γ] {P : α → Prop} {f : α → γ}
  (hcmp : ∀ a b, P a → P b → cmp a b = compare (f a) (f b))
include hcmp

/-- The search keeps a least head: `cmp` moves it only to a strictly smaller one. -/
theorem selectMinBy_go_le :
    ∀ (hs : List (Option α)) (i : Nat) (best : Option (Nat × α)) (r : Nat × α),
      (∀ h ∈ hs, ∀ a ∈ h, P a) → (∀ p ∈ best, P p.2) →
      selectMinBy.go cmp hs i best = some r →
        (∀ p ∈ best, f r.2 ≤ f p.2) ∧ ∀ h ∈ hs, ∀ b ∈ h, f r.2 ≤ f b
  | [], _, _, r, _, _, h =>
    -- an empty search hands back what it holds
    ⟨fun p hp => le_of_eq (congrArg (fun q : Nat × α => f q.2) (Option.some_inj.1 (h.symm.trans hp))),
      by simp⟩
  | none :: hs, i, best, r, hP, hb, h => by
    obtain ⟨h1, h2⟩ := selectMinBy_go_le hs (i + 1) best r (fun h' hh => hP h' (by simp [hh])) hb h
    exact ⟨h1, by simpa using h2⟩
  | some a :: hs, i, best, r, hP, hb, h => by
    have hPa : P a := hP (some a) (by simp) a rfl
    have hPs : ∀ h ∈ hs, ∀ a ∈ h, P a := fun h' hh => hP h' (by simp [hh])
    simp only [selectMinBy.go] at h
    split at h
    · rename_i j b
      have hPb : P b := hb (j, b) rfl
      split at h
      · -- `a` is strictly below `b` and replaces it
        rename_i hlt
        have hab : f a < f b := by
          rw [beq_iff_eq, hcmp a b hPa hPb] at hlt
          exact compare_lt_iff_lt.1 hlt
        obtain ⟨h1, h2⟩ := selectMinBy_go_le hs (i + 1) _ r hPs (by simpa using hPa) h
        have hra : f r.2 ≤ f a := h1 (i, a) rfl
        exact ⟨fun p hp => by cases hp; exact hra.trans hab.le,
          by simpa [hra] using h2⟩
      · -- `b` is at or below `a` and stays
        rename_i hlt
        have hba : f b ≤ f a := by
          rw [beq_iff_eq, hcmp a b hPa hPb] at hlt
          exact not_lt.1 fun h' => hlt (compare_lt_iff_lt.2 h')
        obtain ⟨h1, h2⟩ := selectMinBy_go_le hs (i + 1) _ r hPs (by simpa using hPb) h
        have hrb : f r.2 ≤ f b := h1 (j, b) rfl
        exact ⟨fun p hp => by cases hp; exact hrb, by simpa [hrb.trans hba] using h2⟩
    · obtain ⟨h1, h2⟩ := selectMinBy_go_le hs (i + 1) _ r hPs (by simpa using hPa) h
      have hra : f r.2 ≤ f a := h1 (i, a) rfl
      exact ⟨by simp_all, by simpa [hra] using h2⟩

/-- **The least head.** The chosen head is at or below every present head. -/
theorem selectMinBy_le {hs : List (Option α)} {i : Nat} (hP : ∀ h ∈ hs, ∀ a ∈ h, P a)
    (h : selectMinBy cmp hs = some i) :
    ∃ a, hs[i]? = some (some a) ∧ ∀ h ∈ hs, ∀ b ∈ h, f a ≤ f b := by
  obtain ⟨a, ha⟩ := selectMinBy_getElem? cmp h
  unfold selectMinBy at h
  obtain ⟨⟨j, a'⟩, hr, rfl⟩ := Option.map_eq_some_iff.1 h
  -- the index found holds the head the search kept
  rcases selectMinBy_go_mem cmp hs 0 none _ hr with hb | ⟨k, hk, hj⟩
  · cases hb
  · simp only [zero_add] at hj
    subst hj
    have haa : a = a' := by simpa [hk] using ha.symm
    subst haa
    exact ⟨a, ha, (selectMinBy_go_le cmp hcmp hs 0 none _ hP (by simp) hr).2⟩

/-- The search ends on a head strictly below every present head before it, and strictly below
the head it started with unless it kept that one. -/
theorem selectMinBy_go_lt :
    ∀ (hs : List (Option α)) (i : Nat) (best : Option (Nat × α)) (r : Nat × α),
      (∀ h ∈ hs, ∀ a ∈ h, P a) → (∀ p ∈ best, P p.2 ∧ p.1 < i) →
      selectMinBy.go cmp hs i best = some r →
        (∀ p ∈ best, r.1 ≠ p.1 → f r.2 < f p.2) ∧
          ∀ k b, hs[k]? = some (some b) → i + k < r.1 → f r.2 < f b
  | [], _, _, r, _, _, h => by
    -- an empty search hands back what it holds
    refine ⟨fun p hp hne => absurd (congrArg Prod.fst (Option.some_inj.1 (h.symm.trans hp))) hne,
      fun k b hk => by simp at hk⟩
  | none :: hs, i, best, r, hP, hb, h => by
    obtain ⟨h1, h2⟩ := selectMinBy_go_lt hs (i + 1) best r (fun h' hh => hP h' (by simp [hh]))
      (fun p hp => ⟨(hb p hp).1, Nat.lt_succ_of_lt (hb p hp).2⟩) h
    refine ⟨h1, fun k b hk hlt => ?_⟩
    cases k with
    | zero => simp at hk
    | succ k => exact h2 k b (by simpa using hk) (by omega)
  | some a :: hs, i, best, r, hP, hb, h => by
    have hPa : P a := hP (some a) (by simp) a rfl
    have hPs : ∀ h ∈ hs, ∀ a ∈ h, P a := fun h' hh => hP h' (by simp [hh])
    -- taking `a`, the search ends strictly below it unless it keeps it, and keeping it means
    -- ending on it
    have htake : selectMinBy.go cmp hs (i + 1) (some (i, a)) = some r →
        (r.1 ≠ i → f r.2 < f a) ∧ ∀ k b, hs[k]? = some (some b) → i + 1 + k < r.1 → f r.2 < f b :=
      fun h' => by
        obtain ⟨h1, h2⟩ := selectMinBy_go_lt hs (i + 1) _ r hPs
          (fun p hp => by cases hp; exact ⟨hPa, Nat.lt_succ_self i⟩) h'
        exact ⟨h1 (i, a) rfl, h2⟩
    have hkept : selectMinBy.go cmp hs (i + 1) (some (i, a)) = some r → r.1 = i → r.2 = a :=
      fun h' hri => by
        rcases selectMinBy_go_mem cmp hs (i + 1) _ r h' with hb' | ⟨k, -, hk⟩
        · rw [Option.some_inj.1 hb']
        · omega
    -- the head at `i` itself lies below the end unless it is the end
    have hat : selectMinBy.go cmp hs (i + 1) (some (i, a)) = some r →
        ∀ k b, (some a :: hs)[k]? = some (some b) → i + k < r.1 → f r.2 < f b := fun h' k b hk hlt =>
      match k, hk with
      | 0, hk => by
        obtain rfl : a = b := by simpa using hk
        exact (htake h').1 (by omega)
      | k + 1, hk => (htake h').2 k b (by simpa using hk) (by omega)
    simp only [selectMinBy.go] at h
    split at h
    · rename_i j b
      have hPb : P b := (hb (j, b) rfl).1
      have hj : j < i := (hb (j, b) rfl).2
      split at h
      · -- `a` is strictly below `b` and replaces it
        rename_i hlt
        have hab : f a < f b := by
          rw [beq_iff_eq, hcmp a b hPa hPb] at hlt
          exact compare_lt_iff_lt.1 hlt
        refine ⟨fun p hp _ => ?_, hat h⟩
        cases hp
        by_cases hri : r.1 = i
        · rw [hkept h hri]
          exact hab
        · exact ((htake h).1 hri).trans hab
      · -- `b` is at or below `a` and stays
        rename_i hlt
        have hba : f b ≤ f a := by
          rw [beq_iff_eq, hcmp a b hPa hPb] at hlt
          exact not_lt.1 fun h' => hlt (compare_lt_iff_lt.2 h')
        obtain ⟨h1, h2⟩ := selectMinBy_go_lt hs (i + 1) _ r hPs
          (fun p hp => by cases hp; exact ⟨hPb, by omega⟩) h
        refine ⟨h1, fun k c hk hlt' => ?_⟩
        cases k with
        | zero =>
          obtain rfl : a = c := by simpa using hk
          exact (h1 (j, b) rfl (by omega)).trans_le hba
        | succ k => exact h2 k c (by simpa using hk) (by omega)
    · -- nothing held: `a` is taken
      exact ⟨by simp_all, hat h⟩

/-- **The first least head.** The chosen head is strictly below every present head before it:
of equal least heads, the first is chosen. -/
theorem selectMinBy_lt_of_lt {hs : List (Option α)} {i : Nat} (hP : ∀ h ∈ hs, ∀ a ∈ h, P a)
    (h : selectMinBy cmp hs = some i) :
    ∃ a, hs[i]? = some (some a) ∧ ∀ j < i, ∀ b, hs[j]? = some (some b) → f a < f b := by
  unfold selectMinBy at h
  obtain ⟨⟨j, a⟩, hr, rfl⟩ := Option.map_eq_some_iff.1 h
  rcases selectMinBy_go_mem cmp hs 0 none _ hr with hb | ⟨k, hk, hj⟩
  · cases hb
  · simp only [zero_add] at hj
    subst hj
    refine ⟨a, hk, fun j hj b hb => ?_⟩
    exact (selectMinBy_go_lt cmp hcmp hs 0 none _ hP (by simp) hr).2 j b hb (by simpa using hj)

end Select

/-! ## The merge -/

/-- Taking the head of one list leaves the other elements. -/
theorem flatten_perm_set :
    ∀ {lists : List (List α)} {i : Nat} {a : α} {rest : List α}, lists[i]? = some (a :: rest) →
      lists.flatten.Perm (a :: (lists.set i rest).flatten)
  | [], _, _, _, h => by simp at h
  | l :: ls, 0, a, rest, h => by
    simp only [List.getElem?_cons_zero, Option.some.injEq] at h
    subst h
    rfl
  | l :: ls, i + 1, a, rest, h => by
    simp only [List.getElem?_cons_succ] at h
    simp only [List.set_cons_succ, List.flatten_cons]
    -- the head moves out past the lists before it
    exact ((flatten_perm_set h).append_left l).trans List.perm_middle

variable (cmp : α → α → Ordering)

/-- One step of the merge: the chosen list is non-empty, and its head comes out. -/
theorem mergeLists_succ_of_select (fuel : Nat) {lists : List (List α)} {i : Nat}
    (h : selectMinBy cmp (lists.map List.head?) = some i) :
    ∃ a rest, lists[i]? = some (a :: rest) ∧
      mergeLists cmp (fuel + 1) lists = a :: mergeLists cmp fuel (lists.set i rest) := by
  obtain ⟨a, ha⟩ := selectMinBy_getElem? cmp h
  rw [List.getElem?_map] at ha
  obtain ⟨l, hl, hla⟩ := Option.map_eq_some_iff.1 ha
  obtain ⟨rest, rfl⟩ : ∃ rest, l = a :: rest := by
    cases l with
    | nil => simp at hla
    | cons b rest => exact ⟨rest, by simpa using hla⟩
  exact ⟨a, rest, hl, by simp [mergeLists, h, hl]⟩

/-- **With enough fuel the merge outputs every element once.** -/
theorem mergeLists_perm :
    ∀ (fuel : Nat) (lists : List (List α)), lists.flatten.length < fuel →
      (mergeLists cmp fuel lists).Perm lists.flatten
  | 0, _, h => absurd h (Nat.not_lt_zero _)
  | fuel + 1, lists, h => by
    cases hsel : selectMinBy cmp (lists.map List.head?) with
    | none =>
      -- no list has a head: all are empty
      have hempty : ∀ l ∈ lists, l = [] := fun l hl => by
        simpa using selectMinBy_eq_none cmp hsel l.head? (List.mem_map_of_mem hl)
      have hflat : lists.flatten = [] := List.flatten_eq_nil_iff.2 hempty
      simp [mergeLists, hsel, hflat]
    | some i =>
      obtain ⟨a, rest, hi, hstep⟩ := mergeLists_succ_of_select cmp fuel hsel
      have hperm := flatten_perm_set hi
      have hlen : (lists.set i rest).flatten.length < fuel := by
        have := hperm.length_eq
        simp only [List.length_cons] at this
        omega
      rw [hstep]
      exact ((mergeLists_perm fuel _ hlen).cons a).trans hperm.symm

/-- A bound on the head of a list sorted by `f` bounds all of it. -/
theorem le_of_le_head? [LinearOrder γ] {f : α → γ} {x : γ} {l : List α}
    (hs : l.Pairwise (fun a b => f a ≤ f b)) (hh : ∀ b ∈ l.head?, x ≤ f b) : ∀ y ∈ l, x ≤ f y := by
  cases l with
  | nil => simp
  | cons b l =>
    have hxb : x ≤ f b := hh b rfl
    intro y hy
    rcases List.mem_cons.1 hy with rfl | hy'
    · exact hxb
    · exact hxb.trans (List.rel_of_pairwise_cons hs hy')

variable [LinearOrder γ] {P : α → Prop} {f : α → γ}
  (hcmp : ∀ a b, P a → P b → cmp a b = compare (f a) (f b))
include hcmp

/-- **The merge of sorted lists is sorted**, and draws its elements from the lists. -/
theorem mergeLists_sorted :
    ∀ (fuel : Nat) (lists : List (List α)),
      (∀ l ∈ lists, (∀ a ∈ l, P a) ∧ l.Pairwise (fun a b => f a ≤ f b)) →
      (mergeLists cmp fuel lists).Pairwise (fun a b => f a ≤ f b) ∧
        ∀ y ∈ mergeLists cmp fuel lists, ∃ l ∈ lists, y ∈ l
  | 0, _, _ => by simp [mergeLists]
  | fuel + 1, lists, hl => by
    cases hsel : selectMinBy cmp (lists.map List.head?) with
    | none => simp [mergeLists, hsel]
    | some i =>
      obtain ⟨a, rest, hi, hstep⟩ := mergeLists_succ_of_select cmp fuel hsel
      have hmem : a :: rest ∈ lists := List.mem_of_getElem? hi
      -- the head taken is at or below every head, hence every element left
      obtain ⟨a', ha', hmin⟩ := selectMinBy_le cmp hcmp
        (fun h hh b hb => by
          obtain ⟨l, hl', rfl⟩ := List.mem_map.1 hh
          exact (hl l hl').1 b (List.mem_of_mem_head? hb)) hsel
      have haa : a' = a := by simpa [hi] using ha'.symm
      subst haa
      have hbelow : ∀ l ∈ lists, ∀ y ∈ l, f a' ≤ f y := fun l hl' =>
        le_of_le_head? (hl l hl').2 (hmin l.head? (List.mem_map_of_mem hl'))
      have hl2 : ∀ l ∈ lists.set i rest, (∀ a ∈ l, P a) ∧ l.Pairwise (fun a b => f a ≤ f b) := by
        intro l hl'
        rcases List.mem_or_eq_of_mem_set hl' with hl'' | rfl
        · exact hl l hl''
        · exact ⟨fun b hb => (hl _ hmem).1 b (List.mem_cons_of_mem _ hb), (hl _ hmem).2.of_cons⟩
      have hfrom : ∀ l ∈ lists.set i rest, ∀ y ∈ l, ∃ l' ∈ lists, y ∈ l' := by
        intro l hl' y hy
        rcases List.mem_or_eq_of_mem_set hl' with hl'' | rfl
        · exact ⟨l, hl'', hy⟩
        · exact ⟨_, hmem, List.mem_cons_of_mem _ hy⟩
      obtain ⟨hsorted, hin⟩ := mergeLists_sorted fuel _ hl2
      rw [hstep]
      refine ⟨List.Pairwise.cons (fun y hy => ?_) hsorted, fun y hy => ?_⟩
      · obtain ⟨l, hl', hyl⟩ := hin y hy
        obtain ⟨l', hl'', hyl'⟩ := hfrom l hl' y hyl
        exact hbelow l' hl'' y hyl'
      · rcases List.mem_cons.1 hy with rfl | hy'
        · exact ⟨_, hmem, List.mem_cons_self⟩
        · obtain ⟨l, hl', hyl⟩ := hin y hy'
          exact hfrom l hl' y hyl

end LazySeq
