import Mathlib
import LazySeq.PowerSeries.Hamming

/-!
# The products of powers, in order

`IsProduct ms x` says that `x` is a product of powers of the moduli, `∏ mᵉᵐ` over the distinct
moduli (`isProduct_iff_prod_pow`). With moduli at least 2 there are infinitely many, and
`Nat.nth (IsProduct ms) k` is the `k`-th smallest.

The generator is Dijkstra's. Each modulus `m` has a cursor into the values handed out so far,
at the first one whose multiple by `m` is past the last (`CursorAt`). Every product past the last
is a modulus times an earlier product (`nth_succ_factor`), so the least candidate `m · value`
over the cursors is the next product, and the cursors whose candidate it is move on.
`Hamming.Tracks ms h k` is the generator about to hand out the `k`-th product: its history holds
the products from the lowest cursor to the `k`-th.

Candidates saturate at the largest 64-bit word, so a step is exact while the product it
computes is below that word.

**Main statement.** `hamming_enumerates_products`: for moduli that are not empty and all at
least 2, the generator starts, and as long as the `n`-th product is below the largest 64-bit
word its first `n + 1` outputs are the first `n + 1` products: increasing, and exactly the
products up to the `n`-th, none skipped or repeated.
-/

namespace LazySeq

open Finset

/-! ## Products of powers -/

/-- The products of powers of the moduli: one, and a modulus times a product. -/
inductive IsProduct (ms : List ℕ) : ℕ → Prop
  | one : IsProduct ms 1
  | mul {m x : ℕ} : m ∈ ms → IsProduct ms x → IsProduct ms (m * x)

namespace IsProduct

variable {ms : List ℕ} {x y : ℕ}

theorem mul_product (hx : IsProduct ms x) (hy : IsProduct ms y) : IsProduct ms (x * y) := by
  induction hx with
  | one => simpa using hy
  | mul hm _ ih =>
    rw [Nat.mul_assoc]
    exact .mul hm ih

theorem pow {m : ℕ} (hm : m ∈ ms) (e : ℕ) : IsProduct ms (m ^ e) := by
  induction e with
  | zero => exact .one
  | succ e ih =>
    rw [pow_succ']
    exact .mul hm ih

/-- With moduli at least 2 every product is positive. -/
theorem pos (h2 : ∀ m ∈ ms, 2 ≤ m) (hx : IsProduct ms x) : 0 < x := by
  induction hx with
  | one => exact one_pos
  | mul hm _ ih => exact Nat.mul_pos (by have := h2 _ hm; omega) ih

end IsProduct

/-- The products are the numbers `∏ mᵉᵐ` over the distinct moduli. -/
theorem isProduct_iff_prod_pow {ms : List ℕ} {x : ℕ} :
    IsProduct ms x ↔ ∃ e : ℕ → ℕ, x = ∏ m ∈ ms.toFinset, m ^ e m := by
  constructor
  · intro hx
    induction hx with
    | one => exact ⟨fun _ => 0, by simp⟩
    | @mul m x hm _ ih =>
      obtain ⟨e, rfl⟩ := ih
      -- one more factor `m`: raise its exponent, the others stay
      refine ⟨Function.update e m (e m + 1), ?_⟩
      have hmem : m ∈ ms.toFinset := List.mem_toFinset.2 hm
      rw [← Finset.mul_prod_erase _ _ hmem, ← Finset.mul_prod_erase _ _ hmem,
        Function.update_self, pow_succ', Nat.mul_assoc]
      congr 2
      refine Finset.prod_congr rfl fun a ha => ?_
      rw [Function.update_of_ne (Finset.ne_of_mem_erase ha)]
  · rintro ⟨e, rfl⟩
    exact Finset.prod_induction _ (IsProduct ms) (fun _ _ => IsProduct.mul_product) .one
      fun m hm => IsProduct.pow (List.mem_toFinset.1 hm) (e m)

/-! ## The `k`-th product -/

section Nth

variable {ms : List ℕ}

/-- The powers of one modulus already exceed every bound: there are infinitely many
products. -/
theorem infinite_isProduct (hne : ms ≠ []) (h2 : ∀ m ∈ ms, 2 ≤ m) :
    (Set.ofPred (IsProduct ms)).Infinite := by
  obtain ⟨m, hm⟩ := List.exists_mem_of_ne_nil ms hne
  rw [Set.infinite_iff_exists_gt]
  intro a
  exact ⟨m ^ a, IsProduct.pow hm a, Nat.lt_pow_self (by have := h2 m hm; omega)⟩

theorem exists_nth_eq {x : ℕ} (hx : IsProduct ms x) : ∃ i, Nat.nth (IsProduct ms) i = x := by
  obtain ⟨i, -, hi⟩ := Nat.exists_lt_card_nth_eq hx
  exact ⟨i, hi⟩

variable (hinf : (Set.ofPred (IsProduct ms)).Infinite)
include hinf

theorem isProduct_nth (k : ℕ) : IsProduct ms (Nat.nth (IsProduct ms) k) :=
  Nat.nth_mem_of_infinite hinf k

theorem nth_lt_nth_succ (k : ℕ) : Nat.nth (IsProduct ms) k < Nat.nth (IsProduct ms) (k + 1) :=
  Nat.nth_strictMono hinf (Nat.lt_add_one k)

/-- No product lies strictly between the `k`-th and the next. -/
theorem nth_succ_le {k x : ℕ} (hx : IsProduct ms x) (hlt : Nat.nth (IsProduct ms) k < x) :
    Nat.nth (IsProduct ms) (k + 1) ≤ x := by
  obtain ⟨i, rfl⟩ := exists_nth_eq hx
  rw [Nat.nth_lt_nth hinf] at hlt
  exact (Nat.nth_le_nth hinf).2 hlt

variable (h2 : ∀ m ∈ ms, 2 ≤ m)
include h2

theorem one_le_nth (k : ℕ) : 1 ≤ Nat.nth (IsProduct ms) k :=
  (isProduct_nth hinf k).pos h2

/-- The least product is one. -/
theorem nth_zero_eq_one : Nat.nth (IsProduct ms) 0 = 1 := by
  obtain ⟨i, hi⟩ := exists_nth_eq (IsProduct.one : IsProduct ms 1)
  have hle : Nat.nth (IsProduct ms) 0 ≤ Nat.nth (IsProduct ms) i :=
    (Nat.nth_le_nth hinf).2 (Nat.zero_le i)
  have := one_le_nth hinf h2 0
  omega

/-- **The next product is a modulus times a product already out**: it is not one, so it is
`m · x` for a product `x`, and `x` is smaller, so no later than the `k`-th. -/
theorem nth_succ_factor (k : ℕ) :
    ∃ m ∈ ms, ∃ i ≤ k, Nat.nth (IsProduct ms) (k + 1) = m * Nat.nth (IsProduct ms) i := by
  have hmono := nth_lt_nth_succ hinf k
  have hone := one_le_nth hinf h2 k
  have hprod := isProduct_nth hinf (k + 1)
  generalize hy : Nat.nth (IsProduct ms) (k + 1) = y at hprod hmono ⊢
  cases hprod with
  | one => omega
  | @mul m x hm hx =>
    obtain ⟨i, rfl⟩ := exists_nth_eq hx
    have hlt : Nat.nth (IsProduct ms) i < m * Nat.nth (IsProduct ms) i := by
      have := h2 m hm
      have := one_le_nth hinf h2 i
      nlinarith
    -- a factor past the `k`-th product would put the next one beyond itself
    have hik : i ≤ k := by
      by_contra hki
      have := (Nat.nth_le_nth hinf).2 (show k + 1 ≤ i by omega)
      omega
    exact ⟨m, hm, i, hik, rfl⟩

end Nth

/-! ## Cursors -/

/-- Once the `k`-th product is out, cursor `c` of modulus `m` stands at the first product whose
multiple by `m` is past it. -/
def CursorAt (ms : List ℕ) (k m c : ℕ) : Prop :=
  Nat.nth (IsProduct ms) k < m * Nat.nth (IsProduct ms) c ∧
    ∀ j < c, m * Nat.nth (IsProduct ms) j ≤ Nat.nth (IsProduct ms) k

namespace CursorAt

variable {ms : List ℕ} (hinf : (Set.ofPred (IsProduct ms)).Infinite) (h2 : ∀ m ∈ ms, 2 ≤ m)
  {k m c : ℕ}

include hinf h2 in
/-- Before anything is out, every cursor stands at the first product, one. -/
theorem initial (h2m : 2 ≤ m) : CursorAt ms 0 m 0 := by
  refine ⟨?_, fun j hj => absurd hj (Nat.not_lt_zero j)⟩
  have := one_le_nth hinf h2 0
  nlinarith

include hinf h2 in
/-- A cursor has not passed the last product out: `m` times that product is past it. -/
theorem le (hm : m ∈ ms) (hc : CursorAt ms k m c) : c ≤ k := by
  by_contra hkc
  have hle := hc.2 k (Nat.lt_of_not_le hkc)
  have := h2 m hm
  have := one_le_nth hinf h2 k
  nlinarith

include hinf in
/-- A candidate is a product past the `k`-th, so no less than the next one. -/
theorem nth_succ_le (hm : m ∈ ms) (hc : CursorAt ms k m c) :
    Nat.nth (IsProduct ms) (k + 1) ≤ m * Nat.nth (IsProduct ms) c :=
  LazySeq.nth_succ_le hinf (.mul hm (isProduct_nth hinf c)) hc.1

include hinf in
/-- A cursor whose candidate is the next product moves on by one. -/
theorem advance (hc : CursorAt ms k m c)
    (heq : m * Nat.nth (IsProduct ms) c = Nat.nth (IsProduct ms) (k + 1)) :
    CursorAt ms (k + 1) m (c + 1) := by
  have hmono := nth_lt_nth_succ hinf c
  have hnext := nth_lt_nth_succ hinf k
  refine ⟨?_, fun j hj => ?_⟩
  · rw [← heq]
    exact Nat.mul_lt_mul_of_pos_left hmono (Nat.pos_of_ne_zero fun h0 => by simp [h0] at heq; omega)
  · rcases Nat.lt_or_ge j c with hjc | hjc
    · exact (hc.2 j hjc).trans hnext.le
    · rw [show j = c by omega, heq]

include hinf in
/-- A cursor whose candidate is past the next product stays. -/
theorem stay (hc : CursorAt ms k m c)
    (hlt : Nat.nth (IsProduct ms) (k + 1) < m * Nat.nth (IsProduct ms) c) :
    CursorAt ms (k + 1) m c :=
  ⟨hlt, fun j hj => (hc.2 j hj).trans (nth_lt_nth_succ hinf k).le⟩

end CursorAt

/-- The cursor of modulus `p.1` at `p.2` once the `k + 1`-th product is out: one on if its
candidate was that product. -/
noncomputable def advanceCursor (ms : List ℕ) (k : ℕ) (p : ℕ × ℕ) : ℕ :=
  if p.1 * Nat.nth (IsProduct ms) p.2 = Nat.nth (IsProduct ms) (k + 1) then p.2 + 1 else p.2

theorem le_advanceCursor (ms : List ℕ) (k : ℕ) (p : ℕ × ℕ) : p.2 ≤ advanceCursor ms k p := by
  unfold advanceCursor
  split <;> omega

theorem advanceCursor_le (ms : List ℕ) {k : ℕ} (p : ℕ × ℕ) (hp : p.2 ≤ k) :
    advanceCursor ms k p ≤ k + 1 := by
  unfold advanceCursor
  split <;> omega

/-- A cursor that stood right before the `k + 1`-th product is out stands right after. -/
theorem CursorAt.advanceCursor {ms : List ℕ} (hinf : (Set.ofPred (IsProduct ms)).Infinite)
    {k m c : ℕ} (hm : m ∈ ms) (hc : CursorAt ms k m c) :
    CursorAt ms (k + 1) m (advanceCursor ms k (m, c)) := by
  unfold LazySeq.advanceCursor
  split
  · next heq => exact hc.advance hinf heq
  · next hne => exact hc.stay hinf (Nat.lt_of_le_of_ne (hc.nth_succ_le hinf hm) (Ne.symm hne))

/-- **The next product is a candidate**: it is `m` times a product `x` already out, and the
cursor of `m` has not passed `x`, its multiple being past the `k`-th; nor has it stopped before,
as every candidate is at least the next product. -/
theorem exists_candidate_eq {ms : List ℕ} (hinf : (Set.ofPred (IsProduct ms)).Infinite)
    (h2 : ∀ m ∈ ms, 2 ≤ m) {k : ℕ} {pairs : List (ℕ × ℕ)}
    (hcur : ∀ m ∈ ms, ∃ c, (m, c) ∈ pairs ∧ CursorAt ms k m c) :
    ∃ m ∈ ms, ∃ c, (m, c) ∈ pairs ∧ CursorAt ms k m c ∧
      m * Nat.nth (IsProduct ms) c = Nat.nth (IsProduct ms) (k + 1) := by
  obtain ⟨m, hm, i, hik, hfac⟩ := nth_succ_factor hinf h2 k
  obtain ⟨c, hmem, hc⟩ := hcur m hm
  have hci : c ≤ i := by
    by_contra hic
    have := hc.2 i (Nat.lt_of_not_le hic)
    have := nth_lt_nth_succ hinf k
    omega
  have hle : m * Nat.nth (IsProduct ms) c ≤ Nat.nth (IsProduct ms) (k + 1) :=
    hfac ▸ Nat.mul_le_mul_left m ((Nat.nth_le_nth hinf).2 hci)
  exact ⟨m, hm, c, hmem, hc, Nat.le_antisymm hle (hc.nth_succ_le hinf hm)⟩

/-! ## Lists the generator keeps -/

section Lists

variable {α β γ δ : Type}

/-- A fold with `min` from `a` gives the least of `a` and the list. -/
theorem foldl_min_eq_iff {a v : ℕ} {l : List ℕ} :
    l.foldl min a = v ↔ v ∈ a :: l ∧ ∀ b ∈ a :: l, v ≤ b := by
  rw [← Option.some_inj, ← List.min?_cons', List.min?_eq_some_iff]

/-- Pairs read from a zip whose second list is computed from the pairs of another zip: a map over
the pairs of that zip. -/
theorem map_zip_map_zip (f : α × β → γ) (g : β × γ → δ) :
    ∀ (l₁ : List α) (l₂ : List β), l₂.length = l₁.length →
      (l₂.zip ((l₁.zip l₂).map f)).map g = (l₁.zip l₂).map fun p => g (p.2, f p)
  | [], [], _ => rfl
  | _ :: l₁, _ :: l₂, h => by
    simp only [List.zip_cons_cons, List.map_cons, map_zip_map_zip f g l₁ l₂ (by simpa using h)]
  | [], _ :: _, h => by simp at h
  | _ :: _, [], h => by simp at h

/-- Zipping a list with values computed from its own pairs keeps the first components. -/
theorem zip_map_zip (F : α × β → γ) :
    ∀ (l₁ : List α) (l₂ : List β), l₁.zip ((l₁.zip l₂).map F) = (l₁.zip l₂).map fun p => (p.1, F p)
  | [], _ => rfl
  | _ :: _, [] => rfl
  | _ :: l₁, _ :: l₂ => by simp only [List.zip_cons_cons, List.map_cons, zip_map_zip F l₁ l₂]

/-- Against a list as long, every element of the first list is paired. -/
theorem exists_mem_zip {a : α} :
    ∀ {l₁ : List α} {l₂ : List β}, l₂.length = l₁.length → a ∈ l₁ → ∃ b, (a, b) ∈ l₁.zip l₂
  | _ :: l₁, y :: l₂, h, ha => by
    rcases List.mem_cons.1 ha with rfl | ha
    · exact ⟨y, by simp⟩
    · obtain ⟨b, hb⟩ := exists_mem_zip (by simpa using h) ha
      exact ⟨b, by simp [hb]⟩
  | [], _, _, ha => absurd ha List.not_mem_nil
  | _ :: _, [], h, _ => by simp at h

/-- The least of a list of cursors, starting from the first: between the bounds they all keep,
and no higher than any of them. -/
theorem foldl_min_headD_bounds {cs : List ℕ} {o k : ℕ} (hok : o ≤ k)
    (hcs : ∀ c ∈ cs, o ≤ c ∧ c ≤ k) :
    o ≤ cs.foldl min (cs.headD o) ∧ cs.foldl min (cs.headD o) ≤ k ∧
      ∀ c ∈ cs, cs.foldl min (cs.headD o) ≤ c := by
  have hhead : o ≤ cs.headD o ∧ cs.headD o ≤ k := by
    cases cs with
    | nil => exact ⟨le_rfl, hok⟩
    | cons c rest => exact hcs c List.mem_cons_self
  obtain ⟨hmem, hle⟩ := foldl_min_eq_iff.1 (rfl : cs.foldl min (cs.headD o) = _)
  refine ⟨?_, (hle _ List.mem_cons_self).trans hhead.2, fun c hc => hle c (List.mem_cons_of_mem _ hc)⟩
  rcases List.mem_cons.1 hmem with heq | hin
  · rw [heq]
    exact hhead.1
  · exact (hcs _ hin).1

/-- The values at `o, …, k` with the one at `k + 1` appended, less those below `L`: the values at
`L, …, k + 1`. -/
theorem map_range'_append_drop (f : ℕ → ℕ) {o L k : ℕ} (hoL : o ≤ L) (hLk : L ≤ k + 1)
    (hok : o ≤ k) :
    ((List.range' o (k + 1 - o)).map f ++ [f (k + 1)]).drop (L - o) =
      (List.range' L (k + 1 + 1 - L)).map f := by
  have hlen : k + 1 + 1 - o = (k + 1 - o) + 1 := by omega
  have happend : (List.range' o (k + 1 - o)).map f ++ [f (k + 1)] =
      (List.range' o (k + 1 + 1 - o)).map f := by
    rw [hlen, List.range'_concat, List.map_append]
    simp only [List.map_cons, List.map_nil, Nat.one_mul]
    congr 3
    omega
  rw [happend, ← List.map_drop, List.drop_range']
  congr 2 <;> omega

end Lists

/-! ## The generator -/

namespace Hamming

/-- The generator about to hand out the `k`-th product: its moduli are those of `ms`, with one
cursor each; its history holds the products from `offset` to the `k`-th; and each cursor is at or
past `offset` and stands where `CursorAt` says. -/
structure Tracks (ms : List ℕ) (h : Hamming) (k : ℕ) : Prop where
  moduli : ∀ m, m ∈ h.moduli ↔ m ∈ ms
  length : h.cursors.length = h.moduli.length
  offset_le : h.offset ≤ k
  history : h.history = (List.range' h.offset (k + 1 - h.offset)).map (Nat.nth (IsProduct ms))
  cursors : ∀ p ∈ h.moduli.zip h.cursors, h.offset ≤ p.2 ∧ CursorAt ms k p.1 p.2

namespace Tracks

variable {ms : List ℕ} {h : Hamming} {k : ℕ}

/-- The last value kept is the `k`-th product. -/
theorem getLast?_history (ht : h.Tracks ms k) :
    h.history.getLast? = some (Nat.nth (IsProduct ms) k) := by
  have hlen : k + 1 - h.offset = (k - h.offset) + 1 := by have := ht.offset_le; omega
  rw [ht.history, hlen, List.range'_concat, List.map_append, List.getLast?_append]
  simp only [List.map_cons, List.map_nil, List.getLast?_singleton, Option.some_or]
  congr 2
  have := ht.offset_le
  omega

/-- The history holds the `c`-th product at `c - offset`, from `offset` to `k`. -/
theorem getD_history (ht : h.Tracks ms k) {c : ℕ} (hc : h.offset ≤ c) (hck : c ≤ k) :
    h.history.getD (c - h.offset) 0 = Nat.nth (IsProduct ms) c := by
  rw [ht.history, List.getD_eq_getElem?_getD, List.getElem?_map,
    List.getElem?_range' (by omega)]
  simp only [Nat.one_mul, Option.map_some, Option.getD_some]
  congr 1
  omega

theorem mem_ms (ht : h.Tracks ms k) {p : ℕ × ℕ} (hp : p ∈ h.moduli.zip h.cursors) : p.1 ∈ ms :=
  (ht.moduli p.1).1 (List.of_mem_zip hp).1

variable (hinf : (Set.ofPred (IsProduct ms)).Infinite) (h2 : ∀ m ∈ ms, 2 ≤ m)
include hinf h2

/-- Each candidate is its modulus times the product at its cursor, saturated. -/
theorem candidates_eq (ht : h.Tracks ms k) :
    (h.moduli.zip h.cursors).map (fun p => min wordLimit (p.1 * h.history.getD (p.2 - h.offset) 0)) =
      (h.moduli.zip h.cursors).map fun p => min wordLimit (p.1 * Nat.nth (IsProduct ms) p.2) := by
  refine List.map_congr_left fun p hp => ?_
  obtain ⟨hoff, hc⟩ := ht.cursors p hp
  rw [ht.getD_history hoff (hc.le hinf h2 (ht.mem_ms hp))]

/-- While it is below the largest word, the least candidate is the next product. -/
theorem least_candidate (ht : h.Tracks ms k)
    (hW : Nat.nth (IsProduct ms) (k + 1) < wordLimit) :
    ((h.moduli.zip h.cursors).map fun p => min wordLimit (p.1 * Nat.nth (IsProduct ms) p.2)).foldl
      min wordLimit = Nat.nth (IsProduct ms) (k + 1) := by
  have hcur : ∀ m ∈ ms, ∃ c, (m, c) ∈ h.moduli.zip h.cursors ∧ CursorAt ms k m c := by
    intro m hm
    obtain ⟨c, hmc⟩ := exists_mem_zip ht.length ((ht.moduli m).2 hm)
    exact ⟨c, hmc, (ht.cursors _ hmc).2⟩
  obtain ⟨m, -, c, hmc, -, heq⟩ := exists_candidate_eq hinf h2 hcur
  rw [foldl_min_eq_iff]
  constructor
  · refine List.mem_cons_of_mem _ (List.mem_map.2 ⟨(m, c), hmc, ?_⟩)
    dsimp only
    omega
  · intro b hb
    rcases List.mem_cons.1 hb with rfl | hb
    · exact hW.le
    · obtain ⟨p, hp, rfl⟩ := List.mem_map.1 hb
      exact le_min hW.le ((ht.cursors p hp).2.nth_succ_le hinf (ht.mem_ms hp))

/-- **One step.** The generator hands out the `k`-th product and, while the next is below the
largest word, is then about to hand out the `k + 1`-th. -/
theorem next (ht : h.Tracks ms k) (hW : Nat.nth (IsProduct ms) (k + 1) < wordLimit) :
    ∃ h', h.next = some (Nat.nth (IsProduct ms) k, h') ∧ h'.Tracks ms (k + 1) := by
  have hcursors : (h.cursors.zip ((h.moduli.zip h.cursors).map fun p =>
      min wordLimit (p.1 * Nat.nth (IsProduct ms) p.2))).map
        (fun x => if x.2 = Nat.nth (IsProduct ms) (k + 1) then x.1 + 1 else x.1) =
      (h.moduli.zip h.cursors).map (advanceCursor ms k) := by
    rw [map_zip_map_zip _ _ _ _ ht.length]
    refine List.map_congr_left fun p _ => ?_
    -- below the largest word, a saturated candidate is the next product when the product is
    simp only [advanceCursor]
    split <;> split <;> omega
  simp only [Hamming.next, ht.getLast?_history, candidates_eq hinf h2 ht,
    least_candidate hinf h2 ht hW, hcursors]
  refine ⟨_, rfl, ?_⟩
  set cs := (h.moduli.zip h.cursors).map (advanceCursor ms k) with hcs
  -- each cursor moves on by at most one, and the lowest of them is the new offset
  have hbounds : ∀ c ∈ cs, h.offset ≤ c ∧ c ≤ k + 1 := by
    intro c hc
    obtain ⟨p, hp, rfl⟩ := List.mem_map.1 hc
    obtain ⟨hoff, hcur⟩ := ht.cursors p hp
    exact ⟨hoff.trans (le_advanceCursor ms k p),
      advanceCursor_le ms p (hcur.le hinf h2 (ht.mem_ms hp))⟩
  obtain ⟨hoff, hk, hle⟩ := foldl_min_headD_bounds (ht.offset_le.trans (Nat.le_succ k)) hbounds
  refine ⟨ht.moduli, ?_, ?_, ?_, ?_⟩ <;> dsimp only
  · simp [hcs, ht.length]
  · omega
  · rw [Nat.add_sub_cancel' hoff, ht.history, map_range'_append_drop _ hoff hk ht.offset_le]
  · rw [zip_map_zip, Nat.add_sub_cancel' hoff]
    intro q hq
    obtain ⟨⟨m, c⟩, hp, rfl⟩ := List.mem_map.1 hq
    obtain ⟨-, hcur⟩ := ht.cursors (m, c) hp
    have hm : m ∈ ms := ht.mem_ms hp
    exact ⟨hle _ (List.mem_map.2 ⟨(m, c), hp, rfl⟩), hcur.advanceCursor hinf hm⟩

omit hinf h2 in
/-- A step that hands out `v` is a read of `v`. -/
theorem pull_feed {h' : Hamming} {v : ℕ} (hn : h.next = some (v, h')) :
    Hamming.feed.pull h = (.ok (some v), h') := by
  simp [Feed.pull, Hamming.feed, hn]

omit hinf h2 in
/-- The generator hands out the `k`-th product, whatever it computes for the next. -/
theorem next_current (ht : h.Tracks ms k) : ∃ h', h.next = some (Nat.nth (IsProduct ms) k, h') := by
  simp only [Hamming.next, ht.getLast?_history]
  exact ⟨_, rfl⟩

/-- **Every run.** From the generator about to hand out the `k`-th product, while the `k + n`-th
is below the largest word, `n + 1` reads hand out the `k`-th to the `k + n`-th products. -/
theorem take (ht : h.Tracks ms k) (n : ℕ) (hW : Nat.nth (IsProduct ms) (k + n) < wordLimit)
    (acc : List ℕ) :
    ∃ h', Hamming.feed.take (n + 1) acc h =
      (.ok (acc.reverse ++ (List.range' k (n + 1)).map (Nat.nth (IsProduct ms))), h') := by
  induction n generalizing k h acc with
  | zero =>
    obtain ⟨h', hn⟩ := ht.next_current
    exact ⟨h', by simp [Feed.take, Feed.pull, Hamming.feed, hn]⟩
  | succ n ih =>
    -- the step is exact, its product being no later than the `k + n + 1`-th
    have hW₁ : Nat.nth (IsProduct ms) (k + 1) < wordLimit :=
      lt_of_le_of_lt ((Nat.nth_le_nth hinf).2 (by omega)) hW
    obtain ⟨h₁, hn, ht₁⟩ := ht.next hinf h2 hW₁
    obtain ⟨h', hrest⟩ := ih ht₁ (by rwa [Nat.add_right_comm, Nat.add_assoc]) (Nat.nth (IsProduct ms) k :: acc)
    refine ⟨h', ?_⟩
    rw [Feed.take, pull_feed hn]
    dsimp only
    rw [hrest, @List.range'_succ k (n + 1) 1]
    simp

end Tracks

/-- Moduli that are not empty and all at least 2 start the generator, about to hand out the
least product. -/
theorem make_tracks {ms : List ℕ} (hne : ms ≠ []) (h2 : ∀ m ∈ ms, 2 ≤ m) :
    ∃ h, Hamming.make ms = .ok h ∧ h.Tracks ms 0 := by
  have hinf := infinite_isProduct hne h2
  have hfind : ms.find? (· < 2) = none :=
    List.find?_eq_none.2 fun m hm => by have := h2 m hm; simp only [decide_eq_true_eq]; omega
  refine ⟨⟨(ms.mergeSort (· ≤ ·)).eraseDups, (ms.mergeSort (· ≤ ·)).eraseDups.map fun _ => 0,
    [1], 0⟩, ?_, ?_, ?_, le_rfl, ?_, ?_⟩
  · unfold Hamming.make
    rw [if_neg (by simpa using hne), hfind]
  · intro m
    simp [List.mem_eraseDups, List.mem_mergeSort]
  · simp
  · simp [nth_zero_eq_one hinf h2]
  · intro p hp
    have h1 := List.of_mem_zip hp
    obtain ⟨_, -, hp0⟩ := List.mem_map.1 h1.2
    rw [← hp0]
    refine ⟨le_rfl, CursorAt.initial hinf h2 (h2 _ ?_)⟩
    simpa [List.mem_eraseDups, List.mem_mergeSort] using h1.1

end Hamming

/-! ## Enumerating -/

/-- **The generator enumerates the products of powers in order.** For moduli that are not empty
and all at least 2, in any order and with any repeats, the generator starts; and whenever the
`n`-th smallest product of their powers is below the largest 64-bit word, its first `n + 1`
outputs are the `0`-th to the `n`-th products: strictly increasing, and exactly the products up
to the `n`-th, so none is skipped or repeated. -/
theorem hamming_enumerates_products (ms : List ℕ) (hne : ms ≠ []) (h2 : ∀ m ∈ ms, 2 ≤ m) :
    ∃ h, Hamming.make ms = .ok h ∧ ∀ n, Nat.nth (IsProduct ms) n < wordLimit →
      ∃ vs h', Hamming.feed.take (n + 1) [] h = (.ok vs, h') ∧
        vs = (List.range (n + 1)).map (Nat.nth (IsProduct ms)) ∧ vs.Pairwise (· < ·) ∧
        ∀ x, x ∈ vs ↔ IsProduct ms x ∧ x ≤ Nat.nth (IsProduct ms) n := by
  have hinf := infinite_isProduct hne h2
  obtain ⟨h, hmake, ht⟩ := Hamming.make_tracks hne h2
  refine ⟨h, hmake, fun n hW => ?_⟩
  obtain ⟨h', htake⟩ := ht.take hinf h2 n (by rwa [Nat.zero_add]) []
  refine ⟨(List.range (n + 1)).map (Nat.nth (IsProduct ms)), h', ?_, rfl, ?_, fun x => ?_⟩
  · rw [htake, List.range_eq_range']
    rfl
  · exact List.pairwise_map.2 (List.pairwise_lt_range.imp fun hij => Nat.nth_strictMono hinf hij)
  · -- the first `n + 1` products are those no larger than the `n`-th
    simp only [List.mem_map, List.mem_range]
    constructor
    · rintro ⟨i, hi, rfl⟩
      exact ⟨isProduct_nth hinf i, (Nat.nth_le_nth hinf).2 (by omega)⟩
    · rintro ⟨hx, hle⟩
      obtain ⟨i, rfl⟩ := exists_nth_eq hx
      exact ⟨i, by have := (Nat.nth_le_nth hinf).1 hle; omega, rfl⟩

/-- The moduli `2, 2, 3`, one repeated: their products `2ᵃ3ᵇ`, in order. -/
theorem hamming_enumerates_products_repeated :
    ([2, 2, 3] : List ℕ) ≠ [] ∧ (∀ m ∈ ([2, 2, 3] : List ℕ), 2 ≤ m) ∧
      ∃ h, Hamming.make [2, 2, 3] = .ok h ∧ ∀ n, Nat.nth (IsProduct [2, 2, 3]) n < wordLimit →
        ∃ vs h', Hamming.feed.take (n + 1) [] h = (.ok vs, h') ∧
          vs = (List.range (n + 1)).map (Nat.nth (IsProduct [2, 2, 3])) ∧ vs.Pairwise (· < ·) ∧
          ∀ x, x ∈ vs ↔ IsProduct [2, 2, 3] x ∧ x ≤ Nat.nth (IsProduct [2, 2, 3]) n :=
  ⟨by decide, by decide, hamming_enumerates_products [2, 2, 3] (by decide) (by decide)⟩

end LazySeq
