import Mathlib
import LazySeq.Stream.Feed

/-!
# Inputs that behave as lists

Most statements about adapters speak of runs in which every input is finite and never fails: it
hands out the elements of a list and then reports its end, for good. `Feed.Yields f R` says so
of an input `f` through a relation `R` between its states and the lists they still hold: from a
state related to `xs`, `hasNext` answers whether `xs` is non-empty and keeps the state related to
`xs`, and `tryNext` hands out the head of `xs` and leaves a state related to its tail.

An adapter shown to yield a list in this sense answers every call of every consumer as that list
would; draining it gives the list once the budget exceeds its length (`Feed.Yields.takeAll`).

The inputs of a merge share one state. `Feed.YieldsAt f R i` says that `f` is the `i`-th of
them: a related state holds one list per input, and reading input `i` takes the head of the
`i`-th list and leaves the others as they are.
-/

namespace LazySeq

variable {σ α β : Type}

/-- What a read hands out, the head if there is one, followed by what it leaves is the list. -/
theorem toList_head?_append_tail : ∀ l : List α, l.head?.toList ++ l.tail = l
  | [] => rfl
  | _ :: _ => rfl

namespace Feed

/-- From a state related by `R` to a list, `f` behaves as that list. -/
structure Yields (f : Feed σ α) (R : σ → List α → Prop) : Prop where
  hasNext : ∀ {s xs}, R s xs → ∃ s', f.hasNext s = (.ok !xs.isEmpty, s') ∧ R s' xs
  tryNext : ∀ {s a xs}, R s (a :: xs) → ∃ s', f.tryNext s = (.ok a, s') ∧ R s' xs

namespace Yields

variable {f : Feed σ α} {R : σ → List α → Prop}

/-- A read hands out the head, if there is one, and leaves the tail. -/
theorem pull (h : f.Yields R) {s : σ} {xs : List α} (hs : R s xs) :
    ∃ s', f.pull s = (.ok xs.head?, s') ∧ R s' xs.tail := by
  obtain ⟨s₁, hh, hs₁⟩ := h.hasNext hs
  cases xs with
  | nil => exact ⟨s₁, by simp [Feed.pull, hh], hs₁⟩
  | cons a xs =>
    obtain ⟨s₂, ht, hs₂⟩ := h.tryNext hs₁
    exact ⟨s₂, by simp [Feed.pull, hh, ht], hs₂⟩

/-- **Draining an input that yields a list gives that list**, within any budget beyond its
length. -/
theorem takeAll (h : f.Yields R) :
    ∀ {n : Nat} {acc : List α} {s : σ} {xs : List α}, R s xs → xs.length < n →
      (f.takeAll n acc s).1 = .ok (acc.reverse ++ xs)
  | 0, _, _, _, _, hn => absurd hn (Nat.not_lt_zero _)
  | n + 1, acc, s, xs, hs, hn => by
    obtain ⟨s', hp, hs'⟩ := h.pull hs
    cases xs with
    | nil => simp [Feed.takeAll, hp]
    | cons a xs =>
      simp only [List.head?_cons, List.tail_cons] at hp hs'
      rw [Feed.takeAll, hp]
      have hrest : (f.takeAll n (a :: acc) s').1 = .ok ((a :: acc).reverse ++ xs) :=
        takeAll h hs' (by simpa using hn)
      simpa using hrest

/-- Draining from the start gives the list. -/
theorem takeAll_nil (h : f.Yields R) {n : Nat} {s : σ} {xs : List α} (hs : R s xs)
    (hn : xs.length < n) : (f.takeAll n [] s).1 = .ok xs := by
  have hall : (f.takeAll n [] s).1 = .ok (([] : List α).reverse ++ xs) := h.takeAll hs hn
  rwa [List.reverse_nil, List.nil_append] at hall

/-- A transformed input yields the transformed list. -/
theorem map (h : f.Yields R) (g : α → β) :
    (f.map g).Yields fun s ys => ∃ xs, R s xs ∧ ys = xs.map g where
  hasNext := by
    rintro s _ ⟨xs, hs, rfl⟩
    obtain ⟨s', hh, hs'⟩ := h.hasNext hs
    exact ⟨s', by simpa [Feed.map] using hh, xs, hs', rfl⟩
  tryNext := by
    rintro s b ys ⟨xs, hs, hxs⟩
    cases xs with
    | nil => simp at hxs
    | cons a xs =>
      obtain ⟨rfl, rfl⟩ := List.cons_eq_cons.1 hxs.symm
      obtain ⟨s', ht, hs'⟩ := h.tryNext hs
      exact ⟨s', by simp only [Feed.map, ht]; rfl, xs, hs', rfl⟩

end Yields

/-- A list is an input that yields itself. -/
theorem yields_ofList : (Feed.ofList : Feed (List α) α).Yields (· = ·) where
  hasNext := by
    rintro s xs rfl
    exact ⟨s, rfl, rfl⟩
  tryNext := by
    rintro s a xs rfl
    exact ⟨xs, rfl, rfl⟩

/-! ## Inputs that share a state -/

/-- `f` is input `i` of several sharing a state: from a state related by `R` to one list per
input, it behaves as the `i`-th list, and reading it changes no other. -/
structure YieldsAt (f : Feed σ α) (R : σ → List (List α) → Prop) (i : Nat) : Prop where
  hasNext : ∀ {s ls}, R s ls → ∃ s', f.hasNext s = (.ok !(ls.getD i []).isEmpty, s') ∧ R s' ls
  tryNext : ∀ {s ls a xs}, R s ls → ls.getD i [] = a :: xs →
    ∃ s', f.tryNext s = (.ok a, s') ∧ R s' (ls.set i xs)

/-- A read of input `i` hands out the head of the `i`-th list, if there is one, and leaves its
tail in its place. -/
theorem YieldsAt.pull {f : Feed σ α} {R : σ → List (List α) → Prop} {i : Nat} (h : f.YieldsAt R i)
    {s : σ} {ls : List (List α)} (hs : R s ls) :
    ∃ s', f.pull s = (.ok (ls.getD i []).head?, s') ∧ R s' (ls.set i (ls.getD i []).tail) := by
  obtain ⟨s₁, hh, hs₁⟩ := h.hasNext hs
  cases hl : ls.getD i [] with
  | nil =>
    -- an empty list stays in its place
    have hset : ls.set i [] = ls := by
      rw [← hl]
      simp only [List.getD_eq_getElem?_getD]
      rcases Nat.lt_or_ge i ls.length with hi | hi
      · simp [List.getElem?_eq_getElem hi]
      · simp [List.set_eq_of_length_le hi]
    rw [hl] at hh
    exact ⟨s₁, by simp [Feed.pull, hh], by simpa [hset] using hs₁⟩
  | cons a xs =>
    rw [hl] at hh
    obtain ⟨s₂, ht, hs₂⟩ := h.tryNext hs₁ hl
    exact ⟨s₂, by simp [Feed.pull, hh, ht], hs₂⟩

/-- The `i`-th of several lists, as an input over all of them. -/
def nth (i : Nat) : Feed (List (List α)) α :=
  Feed.ofList.focus (fun ls => ls.getD i []) fun ls xs => ls.set i xs

/-- The `i`-th of several lists yields that list and leaves the others. -/
theorem yieldsAt_nth (i : Nat) : (nth i : Feed (List (List α)) α).YieldsAt (· = ·) i where
  hasNext := by
    rintro ls _ rfl
    refine ⟨ls, ?_, rfl⟩
    simp only [nth, Feed.focus, Feed.ofList, Prod.mk.injEq, true_and]
    rcases Nat.lt_or_ge i ls.length with hi | hi
    · simp [List.getD_eq_getElem?_getD, List.getElem?_eq_getElem hi]
    · simp [List.set_eq_of_length_le hi]
  tryNext := by
    rintro ls _ a xs rfl hl
    refine ⟨ls.set i xs, ?_, rfl⟩
    simp only [nth, Feed.focus, Feed.ofList, hl]

/-- The first `n` of several lists, as inputs over all of them. -/
theorem yieldsAt_nths (n : Nat) :
    ∀ (i : Nat) (f : Feed (List (List α)) α), ((List.range n).map nth)[i]? = some f →
      f.YieldsAt (· = ·) i := by
  intro i f hf
  rw [List.getElem?_map] at hf
  obtain ⟨j, hj, rfl⟩ := Option.map_eq_some_iff.1 hf
  obtain ⟨_, hget⟩ := List.getElem?_eq_some_iff.1 hj
  rw [List.getElem_range] at hget
  subst hget
  exact yieldsAt_nth i

end Feed

end LazySeq
