import LazySeq.Proofs.Series.Ranked

/-!
# What cleansing keeps

Cleansing drops observations and never reorders or invents one: `keepLastBy` keeps the last of
each run, `keepFirstBy` the first of each run of equal values, and `Series.cleanse` chains the
two. So whatever holds of every observation holds of every cleansed one (`Series.cleanse_sublist`).

Read as a step function, a list of entries gives at a key `k` the value of the last entry whose
key is at or below `k` (`Series.inForce`). Dropping an entry followed by one with the same key
changes no such value, whatever the order of the keys; dropping an entry whose value is that of
the entry kept before it changes none either, once the keys do not decrease. When weak equality
is equality, cleansing entries whose keys do not decrease therefore keeps every value in force,
and leaves keys that strictly increase.

**Main statement.** `Series.cleanse_keysSorted`.
-/

namespace LazySeq

variable {α : Type}

theorem keepLastBy_go_sublist (same : α → α → Bool) :
    ∀ (anchor pending : α) (xs : List α), (keepLastBy.go same anchor pending xs).Sublist (pending :: xs)
  | _, _, [] => List.Sublist.refl _
  | anchor, pending, x :: xs => by
    simp only [keepLastBy.go]
    split
    · -- `x` continues the run and replaces `pending`
      exact (keepLastBy_go_sublist same anchor x xs).trans (List.sublist_cons_self pending _)
    · exact (keepLastBy_go_sublist same x x xs).cons_cons pending

theorem keepLastBy_sublist (same : α → α → Bool) (xs : List α) : (keepLastBy same xs).Sublist xs := by
  cases xs with
  | nil => exact List.Sublist.slnil
  | cons x xs => exact keepLastBy_go_sublist same x x xs

theorem keepFirstBy_sublist (same : α → α → Bool) :
    ∀ (last : Option α) (xs : List α), (keepFirstBy same last xs).Sublist xs
  | _, [] => List.Sublist.slnil
  | last, x :: xs => by
    simp only [keepFirstBy]
    split
    · exact (keepFirstBy_sublist same last xs).cons x
    · exact (keepFirstBy_sublist same (some x) xs).cons_cons x

/-- When `same` holds only of equal elements, every element dropped repeats the one kept before
it: each element is the starting one or is kept. -/
theorem mem_keepFirstBy {same : α → α → Bool} (hsame : ∀ a b, same a b = true → a = b) :
    ∀ (last : Option α) (xs : List α), ∀ y ∈ xs, y ∈ last ∨ y ∈ keepFirstBy same last xs
  | _, [], _, hy => absurd hy List.not_mem_nil
  | last, x :: xs, y, hy => by
    simp only [keepFirstBy]
    split
    · rename_i hx
      rcases List.mem_cons.1 hy with rfl | hy'
      · -- `y` repeats the element kept last
        cases last with
        | none => simp at hx
        | some l => exact .inl (by simpa using (hsame _ _ (by simpa using hx)).symm)
      · exact mem_keepFirstBy hsame last xs y hy'
    · rcases List.mem_cons.1 hy with rfl | hy'
      · exact .inr List.mem_cons_self
      · rcases mem_keepFirstBy hsame (some x) xs y hy' with h | h
        · obtain rfl : x = y := by simpa using h
          exact .inr List.mem_cons_self
        · exact .inr (List.mem_cons_of_mem _ h)

/-- On a list sorted by `f`, keeping the first of each run of elements `same` as the last kept
one leaves strictly increasing values of `f`, when `same` holds of elements with equal values. -/
theorem keepFirstBy_pairwise_lt {γ : Type} [LinearOrder γ] (f : α → γ) {P : α → Prop}
    {same : α → α → Bool} (hsame : ∀ a b, P a → P b → f a = f b → same a b = true) :
    ∀ (last : Option α) (xs : List α), (∀ x ∈ xs, P x) → xs.Pairwise (fun a b => f a ≤ f b) →
      (∀ l ∈ last, P l ∧ ∀ x ∈ xs, f l ≤ f x) →
      (keepFirstBy same last xs).Pairwise (fun a b => f a < f b) ∧
        ∀ l ∈ last, ∀ y ∈ keepFirstBy same last xs, f l < f y
  | _, [], _, _, _ => ⟨List.Pairwise.nil, by simp [keepFirstBy]⟩
  | last, x :: xs, hP, hs, hl => by
    have hPx : P x := hP x List.mem_cons_self
    have hPs : ∀ y ∈ xs, P y := fun y hy => hP y (List.mem_cons_of_mem _ hy)
    simp only [keepFirstBy]
    split
    · exact keepFirstBy_pairwise_lt f hsame last xs hPs hs.of_cons
        fun l hl' => ⟨(hl l hl').1, fun y hy => (hl l hl').2 y (List.mem_cons_of_mem _ hy)⟩
    · rename_i hx
      obtain ⟨hpw, habove⟩ := keepFirstBy_pairwise_lt f hsame (some x) xs hPs hs.of_cons
        fun l hl' => by
          obtain rfl : x = l := by simpa using hl'
          exact ⟨hPx, fun y hy => List.rel_of_pairwise_cons hs hy⟩
      -- `x` is not `same` as the last kept element, so its value is strictly greater
      have hlx : ∀ l ∈ last, f l < f x := by
        intro l hl'
        refine lt_of_le_of_ne ((hl l hl').2 x List.mem_cons_self) fun heq => hx ?_
        obtain rfl : last = some l := hl'
        simpa using hsame x l hPx (hl l rfl).1 heq.symm
      refine ⟨List.Pairwise.cons (fun y hy => habove x rfl y hy) hpw, fun l hl' y hy => ?_⟩
      rcases List.mem_cons.1 hy with rfl | hy'
      · exact hlx l hl'
      · exact (hlx l hl').trans (habove _ rfl y hy')

namespace Series

variable {κ ν : Type}

theorem cleanse_sublist [WeakEq κ] [WeakEq ν] (t : Tolerance) (es : List (Entry κ ν)) :
    (cleanse t es).Sublist es :=
  (keepFirstBy_sublist _ none _).trans (keepLastBy_sublist _ es)

/-! ## Exact weak equality -/

/-- Weak equality at tolerance `t` is equality. -/
def ExactOn (t : Tolerance) (α : Type) [WeakEq α] : Prop := ∀ a b : α, weakEq t a b = true ↔ a = b

section Optional

variable {t : Tolerance} {α : Type} [WeakEq α]

@[simp] theorem weakEq_none_none : weakEq t (none : Option α) none = true := rfl

@[simp] theorem weakEq_none_some (b : α) : weakEq t none (some b) = false := rfl

@[simp] theorem weakEq_some_none (a : α) : weakEq t (some a) none = false := rfl

@[simp] theorem weakEq_some_some (a b : α) : weakEq t (some a) (some b) = weakEq t a b := rfl

theorem ExactOn.option (h : ExactOn t α) : ExactOn t (Option α) := by
  intro a b
  cases a <;> cases b <;> simp [h _ _]

end Optional

/-! ## The value in force -/

section InForce

variable [PartialCompare κ]

/-- The value in force at `k` once the entries have been read in order from `before`: every
entry whose key is at or below `k` sets it. On entries in key order this is the value of the
step function at `k`. -/
def inForce (k : Option κ) (before : Option ν) : List (Entry κ ν) → Option ν
  | [] => before
  | e :: es => inForce k (if PartialCompare.le e.1 k then e.2 else before) es

variable {k : Option κ}

@[simp] theorem inForce_nil (before : Option ν) : inForce k before ([] : List (Entry κ ν)) = before :=
  rfl

@[simp] theorem inForce_cons (before : Option ν) (e : Entry κ ν) (es : List (Entry κ ν)) :
    inForce k before (e :: es) = inForce k (if PartialCompare.le e.1 k then e.2 else before) es :=
  rfl

theorem inForce_append (before : Option ν) (xs ys : List (Entry κ ν)) :
    inForce k before (xs ++ ys) = inForce k (inForce k before xs) ys := by
  induction xs generalizing before with
  | nil => rfl
  | cons e es ih => exact ih _

theorem inForce_of_forall_not_le {before : Option ν} {es : List (Entry κ ν)}
    (h : ∀ e ∈ es, PartialCompare.le e.1 k = false) : inForce k before es = before := by
  induction es generalizing before with
  | nil => rfl
  | cons e es ih =>
    rw [inForce_cons, if_neg (by simp [h e (by simp)])]
    exact ih fun e' he' => h e' (by simp [he'])

theorem inForce_append_singleton {before : Option ν} {es : List (Entry κ ν)} {e : Entry κ ν}
    (h : PartialCompare.le e.1 k = true) : inForce k before (es ++ [e]) = e.2 := by
  rw [inForce_append, inForce_cons, if_pos h, inForce_nil]

/-- The value in force is that of the last entry at or below the key, whatever the order. -/
theorem inForce_eq_getLast_filter (es : List (Entry κ ν)) (before : Option ν) :
    inForce k before es =
      (((es.filter fun e => PartialCompare.le e.1 k).getLast?).map (·.2)).getD before := by
  induction es using List.reverseRecOn with
  | nil => rfl
  | append_singleton es e ih =>
    rw [inForce_append, ih]
    cases he : PartialCompare.le e.1 k <;> simp [he]

/-- Two keys with the same entries at or below them have the same value in force. -/
theorem inForce_congr {k' : Option κ} {es : List (Entry κ ν)}
    (h : ∀ e ∈ es, PartialCompare.le e.1 k = PartialCompare.le e.1 k') (before : Option ν) :
    inForce k before es = inForce k' before es := by
  induction es generalizing before with
  | nil => rfl
  | cons e es ih =>
    rw [inForce_cons, inForce_cons, h e List.mem_cons_self]
    exact ih (fun e' he' => h e' (List.mem_cons_of_mem _ he')) _

/-- Dropping an entry followed by one with the same key changes no value in force. -/
theorem inForce_keepLastBy_go {same : Entry κ ν → Entry κ ν → Bool}
    (hsame : ∀ a b, same a b = true → a.1 = b.1) :
    ∀ (anchor pending : Entry κ ν) (xs : List (Entry κ ν)) (before : Option ν),
      pending.1 = anchor.1 →
      inForce k before (keepLastBy.go same anchor pending xs) = inForce k before (pending :: xs)
  | _, _, [], _, _ => rfl
  | anchor, pending, x :: xs, before, hp => by
    simp only [keepLastBy.go]
    split
    · -- `x` replaces `pending`; both have the run's key, so `x` would override it anyway
      rename_i hx
      have hxp : x.1 = pending.1 := (hsame x anchor hx).trans hp.symm
      rw [inForce_keepLastBy_go hsame anchor x xs before (hsame x anchor hx)]
      cases hle : PartialCompare.le pending.1 k <;> simp [hxp, hle]
    · rw [inForce_cons, inForce_keepLastBy_go hsame x x xs _ rfl]
      rfl

theorem inForce_keepLastBy {same : Entry κ ν → Entry κ ν → Bool}
    (hsame : ∀ a b, same a b = true → a.1 = b.1) (xs : List (Entry κ ν)) (before : Option ν) :
    inForce k before (keepLastBy same xs) = inForce k before xs := by
  cases xs with
  | nil => rfl
  | cons x xs => exact inForce_keepLastBy_go hsame x x xs before rfl

end InForce

/-! ## Entries in key order -/

section Sorted

variable {β : Type} [LinearOrder β] {rank : κ → β}

/-- Keys that do not decrease, the defaults first. -/
def KeysSorted (rank : κ → β) (es : List (Entry κ ν)) : Prop :=
  es.Pairwise fun a b => orank rank a.1 ≤ orank rank b.1

/-- Keys that strictly increase, at most one default first. -/
def KeysStrict (rank : κ → β) (es : List (Entry κ ν)) : Prop :=
  es.Pairwise fun a b => orank rank a.1 < orank rank b.1

instance (rank : κ → β) (es : List (Entry κ ν)) : Decidable (KeysSorted rank es) :=
  inferInstanceAs (Decidable (es.Pairwise _))

instance (rank : κ → β) (es : List (Entry κ ν)) : Decidable (KeysStrict rank es) :=
  inferInstanceAs (Decidable (es.Pairwise _))

theorem KeysStrict.keysSorted {es : List (Entry κ ν)} (h : KeysStrict rank es) : KeysSorted rank es :=
  h.imp le_of_lt

/-- Keeping the last of each run of equal keys leaves strictly increasing keys. -/
theorem keysStrict_keepLastBy_go (hinj : Function.Injective rank)
    {same : Entry κ ν → Entry κ ν → Bool} (hsame : ∀ a b, same a b = true → a.1 = b.1)
    (hdiff : ∀ a b, same a b = false → a.1 ≠ b.1) :
    ∀ (anchor pending : Entry κ ν) (xs : List (Entry κ ν)), pending.1 = anchor.1 →
      KeysSorted rank (pending :: xs) → KeysStrict rank (keepLastBy.go same anchor pending xs)
  | _, _, [], _, _ => List.pairwise_singleton _ _
  | anchor, pending, x :: xs, hp, hs => by
    simp only [keepLastBy.go]
    split
    · rename_i hx
      exact keysStrict_keepLastBy_go hinj hsame hdiff anchor x xs (hsame x anchor hx) hs.of_cons
    · -- `pending` ends its run: the next key is different, so strictly greater
      rename_i hx
      have hne : x.1 ≠ pending.1 := hp ▸ hdiff x anchor (by simpa using hx)
      have hpx : orank rank pending.1 < orank rank x.1 :=
        lt_of_le_of_ne (List.rel_of_pairwise_cons hs (by simp))
          fun h => hne (orank_injective hinj h).symm
      refine List.Pairwise.cons (fun e he => ?_)
        (keysStrict_keepLastBy_go hinj hsame hdiff x x xs rfl hs.of_cons)
      rcases List.mem_cons.1 ((keepLastBy_go_sublist same x x xs).subset he) with rfl | he'
      · exact hpx
      · exact hpx.trans_le (List.rel_of_pairwise_cons hs.of_cons he')

variable [PartialCompare κ] (hr : RankedOn (fun _ => True) rank)
include hr

/-- A key at or below `k` keeps every smaller key at or below `k`. -/
theorem le_of_orank_le {a b k : Option κ} (hab : orank rank a ≤ orank rank b)
    (hb : PartialCompare.le b k = true) : PartialCompare.le a k = true := by
  rw [hr.le_iff (allGood_true a) (allGood_true k)]
  rw [hr.le_iff (allGood_true b) (allGood_true k)] at hb
  exact hab.trans hb

/-- Dropping an entry that repeats the value of the entry kept before it changes no value in
force, when keys do not decrease: wherever the dropped entry is in force, so was that one. -/
theorem inForce_keepFirstBy_some {same : Entry κ ν → Entry κ ν → Bool}
    (hsame : ∀ a b, same a b = true → a.2 = b.2) {k : Option κ} :
    ∀ (last : Entry κ ν) (xs : List (Entry κ ν)) (before : Option ν),
      KeysSorted rank (last :: xs) → (PartialCompare.le last.1 k = true → before = last.2) →
      inForce k before (keepFirstBy same (some last) xs) = inForce k before xs
  | _, [], _, _, _ => rfl
  | last, x :: xs, before, hs, hb => by
    have hlx : orank rank last.1 ≤ orank rank x.1 := List.rel_of_pairwise_cons hs (by simp)
    have hxs : KeysSorted rank (x :: xs) := hs.of_cons
    simp only [keepFirstBy, Option.map_some, Option.getD_some]
    split
    · rename_i hx
      have hlast : KeysSorted rank (last :: xs) := hs.sublist (by simp)
      rw [inForce_keepFirstBy_some hsame last xs before hlast hb, inForce_cons]
      -- where `x` is in force, `last` is too, and both carry the value `before` holds
      have hkeep : (if PartialCompare.le x.1 k then x.2 else before) = before := by
        split
        · rename_i hxk
          rw [hb (le_of_orank_le hr hlx hxk), hsame x last hx]
        · rfl
      rw [hkeep]
    · rw [inForce_cons]
      exact inForce_keepFirstBy_some hsame x xs _ hxs fun hxk => by simp [hxk]

theorem inForce_keepFirstBy {same : Entry κ ν → Entry κ ν → Bool}
    (hsame : ∀ a b, same a b = true → a.2 = b.2) {k : Option κ} {xs : List (Entry κ ν)}
    (hs : KeysSorted rank xs) (before : Option ν) :
    inForce k before (keepFirstBy same none xs) = inForce k before xs := by
  cases xs with
  | nil => rfl
  | cons x xs =>
    simp only [keepFirstBy, Option.map_none, Option.getD_none, Bool.false_eq_true, if_false,
      inForce_cons]
    exact inForce_keepFirstBy_some hr hsame x xs _ hs fun hxk => by simp [hxk]

/-- **Cleansing entries in key order.** When weak equality is equality on keys and values,
cleansing entries whose keys do not decrease leaves strictly increasing keys and keeps the value
in force at every key. -/
theorem cleanse_keysSorted [WeakEq κ] [WeakEq ν] {t : Tolerance} (hinj : Function.Injective rank)
    (hk : ExactOn t κ) (hv : ExactOn t ν) {es : List (Entry κ ν)} (hs : KeysSorted rank es) :
    KeysStrict rank (cleanse t es) ∧ ∀ k before, inForce k before (cleanse t es) = inForce k before es := by
  have hk' := hk.option
  have hv' := hv.option
  have hsameKey : ∀ a b : Entry κ ν, weakEq t a.1 b.1 = true → a.1 = b.1 := fun a b h => (hk' _ _).1 h
  have hdiffKey : ∀ a b : Entry κ ν, weakEq t a.1 b.1 = false → a.1 ≠ b.1 := fun a b h heq => by
    simp [(hk' _ _).2 heq] at h
  have hsameVal : ∀ a b : Entry κ ν, weakEq t a.2 b.2 = true → a.2 = b.2 := fun a b h => (hv' _ _).1 h
  have hlast : KeysStrict rank (keepLastBy (fun a b => weakEq t a.1 b.1) es) := by
    cases es with
    | nil => exact List.Pairwise.nil
    | cons e es => exact keysStrict_keepLastBy_go hinj hsameKey hdiffKey e e es rfl hs
  refine ⟨hlast.sublist (keepFirstBy_sublist _ none _), fun k before => ?_⟩
  simp only [cleanse]
  rw [inForce_keepFirstBy hr hsameVal hlast.keysSorted, inForce_keepLastBy hsameKey]

end Sorted

end Series

end LazySeq
