import LazySeq.Proofs.Series.Cleanse
import LazySeq.Proofs.Series.StepFunction

/-!
# When cleansing gives a minimal step description

Cleansing keeps the last of each run of entries whose keys are weakly equal to the run's first,
then drops each entry whose value is weakly equal to that of the entry kept before it. A pass of
either kind changes a list exactly when some neighbours in it are the same for that pass
(`keepLastBy_eq_self_iff`, `keepFirstBy_eq_self_iff`), and what the second pass hands out never has
neighbours with weakly equal values.

Neighbours with weakly equal keys may remain: the second pass can drop the entry that stood between
two keys, and the first compares a key with the first of its run, not with its neighbour. So
`(1, 5), (2, 5), (1, 7)` cleanses to `(1, 5), (1, 7)`, which cleanses to `(1, 7)`; and at tolerance
`1` the keys `0, 0.9, 1.5` keep `0.9` and `1.5`, which cleanse to `1.5` alone. Cleansing again
changes nothing exactly when no neighbours of the cleansed list have weakly equal keys, which holds
when the keys come in order and weak equality is equality on keys.

**Main statement.** `Series.cleanse_idempotent_iff`; `Series.cleanse_twice_merges_keys` is the
two lists cleansed twice.
-/

namespace LazySeq

variable {α : Type} {same : α → α → Bool}

/-! ## Passes that change nothing -/

theorem keepLastBy_go_eq_self :
    ∀ (p : α) (xs : List α), (p :: xs).IsChain (fun a b => same b a = false) →
      keepLastBy.go same p p xs = p :: xs
  | _, [], _ => rfl
  | p, x :: xs, h => by
    rw [List.isChain_cons_cons] at h
    simp only [keepLastBy.go, h.1, Bool.false_eq_true, if_false]
    rw [keepLastBy_go_eq_self x xs h.2]

theorem isChain_of_keepLastBy_go_eq_self :
    ∀ (p : α) (xs : List α), keepLastBy.go same p p xs = p :: xs →
      (p :: xs).IsChain (fun a b => same b a = false)
  | p, [], _ => List.IsChain.singleton p
  | p, x :: xs, h => by
    simp only [keepLastBy.go] at h
    split at h
    · -- `x` would have replaced `p`, leaving fewer entries than there are
      have hlen := (keepLastBy_go_sublist same p x xs).length_le
      rw [h] at hlen
      simp only [List.length_cons] at hlen
      omega
    · rename_i hx
      have hrest := isChain_of_keepLastBy_go_eq_self x xs (List.cons.inj h).2
      exact List.IsChain.cons_cons (by simpa using hx) hrest

/-- **Keeping the last of each run changes a list exactly when some neighbours are `same`.** -/
theorem keepLastBy_eq_self_iff (l : List α) :
    keepLastBy same l = l ↔ l.IsChain (fun a b => same b a = false) := by
  cases l with
  | nil => exact ⟨fun _ => List.IsChain.nil, fun _ => rfl⟩
  | cons p xs => exact ⟨isChain_of_keepLastBy_go_eq_self p xs, keepLastBy_go_eq_self p xs⟩

/-- What is handed out after `p` is never `same` as the entry kept before it. -/
theorem isChain_cons_keepFirstBy :
    ∀ (p : α) (xs : List α), (p :: keepFirstBy same (some p) xs).IsChain (fun a b => same b a = false)
  | p, [] => List.IsChain.singleton p
  | p, x :: xs => by
    simp only [keepFirstBy, Option.map_some, Option.getD_some]
    split
    · exact isChain_cons_keepFirstBy p xs
    · rename_i hx
      exact List.IsChain.cons_cons (by simpa using hx) (isChain_cons_keepFirstBy x xs)

theorem isChain_keepFirstBy (xs : List α) :
    (keepFirstBy same none xs).IsChain (fun a b => same b a = false) := by
  cases xs with
  | nil => exact List.IsChain.nil
  | cons x xs =>
    simp only [keepFirstBy, Option.map_none, Option.getD_none, Bool.false_eq_true, if_false]
    exact isChain_cons_keepFirstBy x xs

theorem keepFirstBy_some_eq_self :
    ∀ (p : α) (xs : List α), (p :: xs).IsChain (fun a b => same b a = false) →
      keepFirstBy same (some p) xs = xs
  | _, [], _ => rfl
  | p, x :: xs, h => by
    rw [List.isChain_cons_cons] at h
    simp only [keepFirstBy, Option.map_some, Option.getD_some, h.1, Bool.false_eq_true, if_false]
    rw [keepFirstBy_some_eq_self x xs h.2]

/-- **Keeping the first of each run changes a list exactly when some neighbours are `same`.** -/
theorem keepFirstBy_eq_self_iff (l : List α) :
    keepFirstBy same none l = l ↔ l.IsChain (fun a b => same b a = false) := by
  refine ⟨fun h => h ▸ isChain_keepFirstBy l, fun h => ?_⟩
  cases l with
  | nil => rfl
  | cons x xs =>
    simp only [keepFirstBy, Option.map_none, Option.getD_none, Bool.false_eq_true, if_false]
    rw [keepFirstBy_some_eq_self x xs h]

/-- Two passes that each keep a sublist change nothing together only when the first changes
nothing: neither can put back what the first took out. -/
theorem eq_self_of_passes_eq_self {f g : List α → List α} (hf : ∀ l, (f l).Sublist l)
    (hg : ∀ l, (g l).Sublist l) {l : List α} (h : f (g l) = l) : g l = l := by
  have hlen : (g l).length = l.length := by
    have := (hf (g l)).length_le
    rw [h] at this
    exact le_antisymm (hg l).length_le this
  exact (hg l).eq_of_length hlen

namespace Series

variable {κ ν : Type} [WeakEq κ] [WeakEq ν]

/-- No neighbours of a cleansed list have weakly equal values. -/
theorem isChain_values_cleanse (t : Tolerance) (es : List (Entry κ ν)) :
    (cleanse t es).IsChain (fun a b => weakEq t b.2 a.2 = false) :=
  isChain_keepFirstBy _

/-- **Cleansing is idempotent exactly when it leaves no neighbours with weakly equal keys**, and it
never leaves neighbours with weakly equal values. When the keys come in order and weak equality is
equality on keys, cleansing is idempotent. -/
theorem cleanse_idempotent_iff (t : Tolerance) (es : List (Entry κ ν)) :
    (cleanse t es).IsChain (fun a b => weakEq t b.2 a.2 = false) ∧
      (cleanse t (cleanse t es) = cleanse t es ↔
        (cleanse t es).IsChain (fun a b => weakEq t b.1 a.1 = false)) ∧
      ∀ {β : Type} [LinearOrder β] (rank : κ → β), Function.Injective rank → ExactOn t κ →
        KeysSorted rank es → cleanse t (cleanse t es) = cleanse t es := by
  have hvalues := isChain_values_cleanse t es
  -- the second cleansing is two passes that each change nothing or shorten the list
  have hiff : cleanse t (cleanse t es) = cleanse t es ↔
      (cleanse t es).IsChain (fun a b => weakEq t b.1 a.1 = false) := by
    constructor
    · intro h
      exact (keepLastBy_eq_self_iff _).1 (eq_self_of_passes_eq_self (keepFirstBy_sublist _ none)
        (keepLastBy_sublist (fun a b : Entry κ ν => weakEq t a.1 b.1)) h)
    · intro hkeys
      rw [cleanse, (keepLastBy_eq_self_iff _).2 hkeys, (keepFirstBy_eq_self_iff _).2 hvalues]
  refine ⟨hvalues, hiff, fun rank hinj hk hs => hiff.2 ?_⟩
  -- in key order with exact keys, the first pass leaves strictly increasing keys
  have hsameKey : ∀ a b : Entry κ ν, weakEq t a.1 b.1 = true → a.1 = b.1 :=
    fun a b h => (hk.option _ _).1 h
  have hdiffKey : ∀ a b : Entry κ ν, weakEq t a.1 b.1 = false → a.1 ≠ b.1 := fun a b h heq => by
    simp [(hk.option _ _).2 heq] at h
  have hstrict : KeysStrict rank (cleanse t es) := by
    cases es with
    | nil => exact List.Pairwise.nil
    | cons e es =>
      exact (keysStrict_keepLastBy_go hinj hsameKey hdiffKey e e es rfl hs).sublist
        (keepFirstBy_sublist _ none _)
  refine hstrict.isChain.imp fun {a b} hab => ?_
  cases hw : weakEq t b.1 a.1 with
  | false => rfl
  | true => exact absurd (congrArg (orank rank) (hsameKey b a hw)) (ne_of_gt hab)

/-- Word entries in key order, with a repeated key and a repeated value: cleansing them again
changes nothing. -/
theorem cleanse_twice_words_in_order :
    Function.Injective Int64.toInt ∧ ExactOn Tolerance.exact Int64 ∧
      KeysSorted Int64.toInt
        [(some (1 : Int64), some (5 : Int64)), (some 1, some 7), (some 2, some 7), (some 3, some 4)] ∧
      cleanse Tolerance.exact (cleanse Tolerance.exact
        [(some (1 : Int64), some (5 : Int64)), (some 1, some 7), (some 2, some 7), (some 3, some 4)]) =
        cleanse Tolerance.exact
          [(some (1 : Int64), some (5 : Int64)), (some 1, some 7), (some 2, some 7), (some 3, some 4)] :=
  ⟨fun _ _ => Int64.toInt_inj.1, exactOn_int64 _, by decide,
    (cleanse_idempotent_iff Tolerance.exact _).2.2 Int64.toInt (fun _ _ => Int64.toInt_inj.1)
      (exactOn_int64 _) (by decide)⟩

/-- Cleansing twice merges keys cleansing once left side by side: exact word entries out of key
order, and double entries in key order at tolerance `1`. -/
theorem cleanse_twice_merges_keys :
    cleanse Tolerance.exact [(some (1 : Int64), some (5 : Int64)), (some 2, some 5), (some 1, some 7)] =
        [(some 1, some 5), (some 1, some 7)] ∧
      cleanse Tolerance.exact (cleanse Tolerance.exact
        [(some (1 : Int64), some (5 : Int64)), (some 2, some 5), (some 1, some 7)]) = [(some 1, some 7)] ∧
      cleanse ⟨1.0⟩ [(some (0.0 : Float), some (1.0 : Float)), (some 0.9, some 2.0), (some 1.5, some 3.0)] =
        [(some 0.9, some 2.0), (some 1.5, some 3.0)] ∧
      cleanse ⟨1.0⟩ (cleanse ⟨1.0⟩
        [(some (0.0 : Float), some (1.0 : Float)), (some 0.9, some 2.0), (some 1.5, some 3.0)]) =
        [(some 1.5, some 3.0)] :=
  ⟨by decide, by decide, rfl, rfl⟩

end Series

end LazySeq
