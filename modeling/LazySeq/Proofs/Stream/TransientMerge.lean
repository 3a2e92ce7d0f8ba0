import Mathlib
import LazySeq.Proofs.Stream.Transient
import LazySeq.Proofs.Stream.Zip

/-!
# Zip and merge over inputs that fail for a while

The inputs of a zip or a merge sit side by side, each on a part of the state of its own
(`Feed.sideBySide`), so a call of one input moves nothing of another. Both adapters read one head
per input in input order (`Zip.fillFrom`); a failure stops the pass and keeps the heads read so
far, and the next call resumes at the input that failed. What the inputs still hold is described
by one list per input, less the head already read of the inputs passed (`Sides.Holding`).

* A zip hands out the rows of its inputs' lists (`Zip.Zipped`) when every input's `hasNext`
  answers whether its sequence goes on (`Feed.Truthful`), as a fork does. An input that answers
  `true` for a failure it has kept ahead, and then turns out to have ended, makes the zip start a
  row it would not have started: the row of absent cells is handed out after the retry.
* A merge whose selector keeps no state and names a present head whenever there is one
  (`Merge.Picks`) hands out the merge of its inputs' lists (`Merge.Merged`), over any inputs. A
  failure met while reading the heads is kept and handed out by the next call; a failure of the
  refill leaves the head in place. With a selector that keeps a state, the retried call asks the
  selector again, and a turn counter then names another input.
-/

namespace LazySeq

variable {α : Type} {σs : ℕ → Type}

namespace Feed

/-- Input `i` of several side by side, on a part of the state of its own. -/
def atIndex (i : ℕ) (f : Feed (σs i) α) : Feed ((j : ℕ) → σs j) α :=
  f.focus (fun ss => ss i) fun ss t => Function.update ss i t

/-- The inputs `fs 0, …, fs (n - 1)` side by side. -/
def sideBySide (fs : (i : ℕ) → Feed (σs i) α) (n : ℕ) : List (Feed ((j : ℕ) → σs j) α) :=
  (List.range n).map fun i => atIndex i (fs i)

@[simp] theorem atIndex_hasNext (i : ℕ) (f : Feed (σs i) α) (ss : (j : ℕ) → σs j) :
    (atIndex i f).hasNext ss = ((f.hasNext (ss i)).1, Function.update ss i (f.hasNext (ss i)).2) :=
  rfl

@[simp] theorem atIndex_tryNext (i : ℕ) (f : Feed (σs i) α) (ss : (j : ℕ) → σs j) :
    (atIndex i f).tryNext ss = ((f.tryNext (ss i)).1, Function.update ss i (f.tryNext (ss i)).2) :=
  rfl

/-- A read of input `i` reads its own part of the state. -/
theorem atIndex_pull (i : ℕ) (f : Feed (σs i) α) (ss : (j : ℕ) → σs j) :
    (atIndex i f).pull ss = ((f.pull (ss i)).1, Function.update ss i (f.pull (ss i)).2) := by
  unfold atIndex
  refine focus_pull ?_ ?_ f ss
  · intro ss t
    exact Function.update_self i t ss
  · intro ss t t'
    exact Function.update_idem t t' ss

/-- The inputs from the `m`-th on: input `m`, then those after it. -/
theorem drop_sideBySide {fs : (i : ℕ) → Feed (σs i) α} {n m : ℕ} (hm : m < n) :
    (sideBySide fs n).drop m = atIndex m (fs m) :: (sideBySide fs n).drop (m + 1) := by
  rw [List.drop_eq_getElem_cons (by simpa [sideBySide] using hm)]
  congr 1
  simp only [sideBySide, List.getElem_map]
  exact congrArg (fun i => atIndex i (fs i)) (by simp)

theorem drop_sideBySide_of_le {fs : (i : ℕ) → Feed (σs i) α} {n m : ℕ} (hm : n ≤ m) :
    (sideBySide fs n).drop m = [] :=
  List.drop_of_length_le (by simpa [sideBySide] using hm)

theorem getElem?_sideBySide {fs : (i : ℕ) → Feed (σs i) α} {n i : ℕ} (hi : i < n) :
    (sideBySide fs n)[i]? = some (atIndex i (fs i)) := by
  rw [List.getElem?_eq_getElem (by simpa [sideBySide] using hi)]
  simp only [sideBySide, List.getElem_map]
  exact congrArg (fun i => some (atIndex i (fs i))) (by simp)

end Feed

namespace Sides

variable {n m : ℕ} {fs : (i : ℕ) → Feed (σs i) α}
  {Rs : (i : ℕ) → σs i → Stream'.Seq α → ℕ → Prop}

/-- What input `i` still holds of the lists `L` once the first `m` inputs have handed out a head:
its list less the head, or all of it. -/
def rest (L : List (List α)) (m i : ℕ) : List α :=
  if i < m then (L.getD i []).tail else L.getD i []

/-- Inputs side by side that hold the lists `L`, one per input, the first `m` of them read one
deep: input `i` is related to what it still holds, with `ks i` failures to come. -/
def Holding (n : ℕ) (Rs : (i : ℕ) → σs i → Stream'.Seq α → ℕ → Prop) (m : ℕ)
    (ss : (j : ℕ) → σs j) (L : List (List α)) (ks : ℕ → ℕ) : Prop :=
  L.length = n ∧ m ≤ n ∧ ∀ i < n, Rs i (ss i) ↑(rest L m i) (ks i)

variable {ss : (j : ℕ) → σs j} {L : List (List α)} {ks : ℕ → ℕ}

/-- Input `m` handed out the head of its list. -/
theorem Holding.step (h : Holding n Rs m ss L ks) (hm : m < n) {t : σs m}
    (ht : Rs m t ↑(L.getD m []).tail (ks m)) :
    Holding n Rs (m + 1) (Function.update ss m t) L ks := by
  refine ⟨h.1, hm, fun i hi => ?_⟩
  by_cases him : i = m
  · subst him
    simpa [rest] using ht
  · rw [Function.update_of_ne him]
    have hrest : rest L (m + 1) i = rest L m i := by
      unfold rest
      split_ifs <;> first | rfl | omega
    rw [hrest]
    exact h.2.2 i hi

/-- Input `j` failed, leaving what it holds with fewer failures to come. -/
theorem Holding.fail (h : Holding n Rs m ss L ks) {j : ℕ} {t : σs j} {k' : ℕ}
    (ht : Rs j t ↑(rest L m j) k') :
    Holding n Rs m (Function.update ss j t) L (Function.update ks j k') := by
  refine ⟨h.1, h.2.1, fun i hi => ?_⟩
  by_cases hij : i = j
  · subst hij
    simpa using ht
  · rw [Function.update_of_ne hij, Function.update_of_ne hij]
    exact h.2.2 i hi

/-- A failure of input `j` lowers the count of failures to come in all. -/
theorem sum_update_lt {j : ℕ} (hj : j < n) {k' : ℕ} (hk : k' < ks j) :
    ∑ i ∈ Finset.range n, Function.update ks j k' i < ∑ i ∈ Finset.range n, ks i := by
  apply Finset.sum_lt_sum
  · intro i _
    by_cases hij : i = j
    · subst hij
      simp only [Function.update_self]
      omega
    · rw [Function.update_of_ne hij]
  · exact ⟨j, Finset.mem_range.2 hj, by simpa using hk⟩

/-- Once every input has handed out its head, the inputs hold the tails of the lists. -/
theorem Holding.tails (h : Holding n Rs n ss L ks) : Holding n Rs 0 ss (L.map List.tail) ks := by
  refine ⟨by rw [List.length_map, h.1], Nat.zero_le _, fun i hi => ?_⟩
  have hrest : rest (L.map List.tail) 0 i = rest L n i := by
    simp [rest, hi, List.getD_eq_getElem?_getD, List.getElem?_map]
    cases L[i]? <;> rfl
  rw [hrest]
  exact h.2.2 i hi

/-- Input `i`, read one deep with the others, handed out the head of the list `l`: the inputs
hold the lists with `l` in the place of input `i`'s. -/
theorem Holding.refill (h : Holding n Rs n ss L ks) {i : ℕ} (hi : i < n) {l : List α}
    {t : σs i} (ht : Rs i t ↑l.tail (ks i)) :
    Holding n Rs n (Function.update ss i t) (L.set i l) ks := by
  refine ⟨by rw [List.length_set, h.1], le_rfl, fun j hj => ?_⟩
  by_cases hji : j = i
  · subst hji
    simpa [rest, hj, List.getD_eq_getElem?_getD, h.1] using ht
  · rw [Function.update_of_ne hji]
    have hrest : rest (L.set i l) n j = rest L n j := by
      simp [rest, hj, List.getD_eq_getElem?_getD, List.getElem?_set_ne (Ne.symm hji)]
    rw [hrest]
    exact h.2.2 j hj

variable (hin : ∀ i < n, (fs i).Transient (Rs i))
include hin

/-- **One pass over the inputs.** Reading a head from each input from the `m`-th on either stops
at a failure, with the heads read so far kept and fewer failures to come, or reads every head
and leaves each input its list's tail. -/
theorem fillFrom_cases :
    ∀ (d m : ℕ), m + d = n → ∀ {ss : (j : ℕ) → σs j} {row : Array (Option α)} {ks : ℕ → ℕ},
      row.toList = (L.take m).map List.head? → Holding n Rs m ss L ks →
      (∃ e row' ss' ks', e ≠ .exhausted ∧
          ∑ i ∈ Finset.range n, ks' i < ∑ i ∈ Finset.range n, ks i ∧
          Zip.fillFrom ((Feed.sideBySide fs n).drop m) row ss = (.error (.fail e), row', ss') ∧
          row'.toList = (L.take row'.size).map List.head? ∧ Holding n Rs row'.size ss' L ks') ∨
        ∃ ss', Zip.fillFrom ((Feed.sideBySide fs n).drop m) row ss =
            (.ok (), (L.map List.head?).toArray, ss') ∧ Holding n Rs n ss' L ks
  | 0, m, hmd, ss, row, ks, hrow, h => by
    have hmn : m = n := by omega
    subst hmn
    have hrowL : row = (L.map List.head?).toArray :=
      Array.toList_inj.1 (by rw [hrow, List.take_of_length_le (by rw [h.1])])
    refine .inr ⟨ss, ?_, h⟩
    rw [Feed.drop_sideBySide_of_le le_rfl, Zip.fillFrom, hrowL]
  | d + 1, m, hmd, ss, row, ks, hrow, h => by
    have hm : m < n := by omega
    have hmL : m < L.length := by rw [h.1]; exact hm
    have hsize : row.size = m := by
      rw [← Array.length_toList, hrow, List.length_map, List.length_take, Nat.min_eq_left hmL.le]
    have hs : Rs m (ss m) ↑(L.getD m []) (ks m) := by
      simpa [rest] using h.2.2 m hm
    rw [Feed.drop_sideBySide hm, Zip.fillFrom, Feed.atIndex_pull]
    rcases (hin m hm).pull hs with ⟨e, t, k', he, hk, hp, ht⟩ | ⟨t, hp, ht⟩
    · -- the failure stops the pass, and the heads read so far stay
      refine .inl ⟨e, row, Function.update ss m t, Function.update ks m k', he,
        sum_update_lt hm hk, by simp [hp], by rw [hsize]; exact hrow, ?_⟩
      rw [hsize]
      exact h.fail (by simpa [rest] using ht)
    · -- the head joins the row and the pass goes on with the next input
      rw [Feed.seq_head_ofList] at hp
      rw [Feed.seq_tail_ofList] at ht
      have hrow' : (row.push (L.getD m []).head?).toList = (L.take (m + 1)).map List.head? := by
        rw [Array.toList_push, hrow, List.take_add_one, List.getElem?_eq_getElem hmL,
          List.map_append]
        simp [List.getD_eq_getElem?_getD, List.getElem?_eq_getElem hmL]
      simp only [hp]
      exact fillFrom_cases d (m + 1) (by omega) hrow' (h.step hm ht)

/-- Asking the inputs from the `m`-th on whether some has an element, with no head read: inputs
that answer truthfully answer as their lists, asking again answers the same and moves nothing,
and the inputs before the `m`-th are not touched. -/
theorem anyHasNext_cases (htr : ∀ i < n, (fs i).Truthful (Rs i)) :
    ∀ (d m : ℕ), m + d = n → ∀ {ss : (j : ℕ) → σs j} {ks : ℕ → ℕ}, Holding n Rs 0 ss L ks →
      ∃ ss', Zip.anyHasNext ((Feed.sideBySide fs n).drop m) ss =
          (.ok ((L.drop m).any (!·.isEmpty)), ss') ∧
        Zip.anyHasNext ((Feed.sideBySide fs n).drop m) ss' =
          (.ok ((L.drop m).any (!·.isEmpty)), ss') ∧
        Holding n Rs 0 ss' L ks ∧ ∀ i < m, ss' i = ss i
  | 0, m, hmd, ss, ks, h => by
    have hLm : L.length ≤ m := by rw [h.1]; omega
    rw [Feed.drop_sideBySide_of_le (by omega), List.drop_of_length_le hLm]
    exact ⟨ss, rfl, rfl, h, fun _ _ => rfl⟩
  | d + 1, m, hmd, ss, ks, h => by
    have hm : m < n := by omega
    have hmL : m < L.length := by rw [h.1]; exact hm
    have hs : Rs m (ss m) ↑(L.getD m []) (ks m) := by simpa [rest] using h.2.2 m hm
    obtain ⟨b, t, hh, hh', ht, -⟩ := (hin m hm).hasNext hs
    have hb : b = !(L.getD m []).isEmpty := by
      have := htr m hm hs
      rw [hh, Feed.seq_head_ofList] at this
      cases hl : L.getD m [] <;> simp_all
    have h₁ : Holding n Rs 0 (Function.update ss m t) L ks := by
      have := h.fail (show Rs m t ↑(rest L 0 m) (ks m) by simpa [rest] using ht)
      rwa [Function.update_eq_self] at this
    rw [Feed.drop_sideBySide hm, List.drop_eq_getElem_cons hmL, List.any_cons]
    have hget : L[m] = L.getD m [] := by simp [List.getD_eq_getElem?_getD, List.getElem?_eq_getElem hmL]
    rw [hget, ← hb]
    cases b with
    | true =>
      -- an input with an element answers for all
      refine ⟨Function.update ss m t, by simp [Zip.anyHasNext, hh], ?_, h₁, fun i hi => ?_⟩
      · simp [Zip.anyHasNext, hh']
      · exact Function.update_of_ne (by omega) _ _
    | false =>
      obtain ⟨ss', hrun, hrun', hs', hframe⟩ := anyHasNext_cases htr d (m + 1) (by omega) h₁
      have hm' : ss' m = t := by simpa using hframe m (by omega)
      refine ⟨ss', by simp [Zip.anyHasNext, hh, hrun], ?_, hs', fun i hi => ?_⟩
      · have hupd : Function.update ss' m t = ss' := by rw [← hm', Function.update_eq_self]
        simp [Zip.anyHasNext, hm', hh', hupd, hrun']
      · rw [hframe i (by omega), Function.update_of_ne (by omega)]

/-- Asking the inputs from the `m`-th on whether every one has an element, with no head read:
inputs that answer truthfully answer as their lists, asking again answers the same and moves
nothing, and the inputs before the `m`-th are not touched. -/
theorem allHasNext_cases (htr : ∀ i < n, (fs i).Truthful (Rs i)) :
    ∀ (d m : ℕ), m + d = n → ∀ {ss : (j : ℕ) → σs j} {ks : ℕ → ℕ}, Holding n Rs 0 ss L ks →
      ∃ ss', Zip.allHasNext ((Feed.sideBySide fs n).drop m) ss =
          (.ok ((L.drop m).all (!·.isEmpty)), ss') ∧
        Zip.allHasNext ((Feed.sideBySide fs n).drop m) ss' =
          (.ok ((L.drop m).all (!·.isEmpty)), ss') ∧
        Holding n Rs 0 ss' L ks ∧ ∀ i < m, ss' i = ss i
  | 0, m, hmd, ss, ks, h => by
    have hLm : L.length ≤ m := by rw [h.1]; omega
    rw [Feed.drop_sideBySide_of_le (by omega), List.drop_of_length_le hLm]
    exact ⟨ss, rfl, rfl, h, fun _ _ => rfl⟩
  | d + 1, m, hmd, ss, ks, h => by
    have hm : m < n := by omega
    have hmL : m < L.length := by rw [h.1]; exact hm
    have hs : Rs m (ss m) ↑(L.getD m []) (ks m) := by simpa [rest] using h.2.2 m hm
    obtain ⟨b, t, hh, hh', ht, -⟩ := (hin m hm).hasNext hs
    have hb : b = !(L.getD m []).isEmpty := by
      have := htr m hm hs
      rw [hh, Feed.seq_head_ofList] at this
      cases hl : L.getD m [] <;> simp_all
    have h₁ : Holding n Rs 0 (Function.update ss m t) L ks := by
      have := h.fail (show Rs m t ↑(rest L 0 m) (ks m) by simpa [rest] using ht)
      rwa [Function.update_eq_self] at this
    rw [Feed.drop_sideBySide hm, List.drop_eq_getElem_cons hmL, List.all_cons]
    have hget : L[m] = L.getD m [] := by
      simp [List.getD_eq_getElem?_getD, List.getElem?_eq_getElem hmL]
    rw [hget, ← hb]
    cases b with
    | false =>
      -- an input without an element answers for all
      refine ⟨Function.update ss m t, by simp [Zip.allHasNext, hh], ?_, h₁, fun i hi => ?_⟩
      · simp [Zip.allHasNext, hh']
      · exact Function.update_of_ne (by omega) _ _
    | true =>
      obtain ⟨ss', hrun, hrun', hs', hframe⟩ := allHasNext_cases htr d (m + 1) (by omega) h₁
      have hm' : ss' m = t := by simpa using hframe m (by omega)
      refine ⟨ss', by simp [Zip.allHasNext, hh, hrun], ?_, hs', fun i hi => ?_⟩
      · have hupd : Function.update ss' m t = ss' := by rw [← hm', Function.update_eq_self]
        simp [Zip.allHasNext, hm', hh', hupd, hrun']
      · rw [hframe i (by omega), Function.update_of_ne (by omega)]

end Sides

/-! ## Zip -/

/-- A zip has a row ahead exactly when it goes on. -/
theorem head_zipRows_isSome (weak : Bool) (L : List (List α)) :
    (Stream'.Seq.ofList (zipRows weak L)).head.isSome = mergeAnswer weak L := by
  have h := isEmpty_zipRows weak L
  rw [Feed.seq_head_ofList]
  cases hz : zipRows weak L <;> simp_all

namespace Zip

variable {n : ℕ} {fs : (i : ℕ) → Feed (σs i) α} {Rs : (i : ℕ) → σs i → Stream'.Seq α → ℕ → Prop}
  {ss : (j : ℕ) → σs j} {L : List (List α)} {ks : ℕ → ℕ}

/-- What a zip of inputs side by side still hands out: the rows of the lists its inputs hold, the
row begun holding their heads, and a row begun only while the zip goes on. -/
def Zipped (weak : Bool) (n : ℕ) (Rs : (i : ℕ) → σs i → Stream'.Seq α → ℕ → Prop)
    (p : Array (Option α) × ((j : ℕ) → σs j)) (rows : Stream'.Seq (List (Option α))) (k : ℕ) :
    Prop :=
  ∃ L ks, p.1.toList = (L.take p.1.size).map List.head? ∧ Sides.Holding n Rs p.1.size p.2 L ks ∧
    ∑ i ∈ Finset.range n, ks i ≤ k ∧ (0 < p.1.size → mergeAnswer weak L = true) ∧
    rows = ↑(zipRows weak L)

variable (hin : ∀ i < n, (fs i).Transient (Rs i)) (htr : ∀ i < n, (fs i).Truthful (Rs i))
include hin htr

/-- Asked whether it has more, a zip of truthful inputs answers whether it goes on, and asking
again answers the same and moves nothing. -/
theorem hasNext_holding (weak : Bool) {row : Array (Option α)}
    (h : Sides.Holding n Rs row.size ss L ks) (hstart : 0 < row.size → mergeAnswer weak L = true) :
    ∃ ss', Zip.hasNext weak (Feed.sideBySide fs n) row ss = (.ok (mergeAnswer weak L), ss') ∧
      Zip.hasNext weak (Feed.sideBySide fs n) row ss' = (.ok (mergeAnswer weak L), ss') ∧
      Sides.Holding n Rs row.size ss' L ks := by
  rcases Nat.eq_zero_or_pos row.size with hsz | hsz
  · rw [hsz] at h
    rcases Nat.eq_zero_or_pos n with rfl | hn
    · -- no inputs: no rows
      obtain rfl : L = [] := List.eq_nil_of_length_eq_zero h.1
      refine ⟨ss, ?_, ?_, by rwa [hsz]⟩ <;> cases weak <;> simp [Zip.hasNext, hsz, Feed.sideBySide, mergeAnswer]
    · have hne : (Feed.sideBySide fs n).isEmpty = false := by simp [Feed.sideBySide]; omega
      have hLne : L.isEmpty = false := by
        rw [List.isEmpty_eq_false_iff, ← List.length_pos_iff, h.1]; exact hn
      cases weak with
      | true =>
        obtain ⟨ss', hrun, hrun', hs', -⟩ := Sides.anyHasNext_cases hin htr n 0 (by omega) h
        refine ⟨ss', ?_, ?_, by rwa [hsz]⟩ <;>
          simpa [Zip.hasNext, hsz, hne, mergeAnswer] using ‹_›
      | false =>
        obtain ⟨ss', hrun, hrun', hs', -⟩ := Sides.allHasNext_cases hin htr n 0 (by omega) h
        refine ⟨ss', ?_, ?_, by rwa [hsz]⟩ <;>
          simpa [Zip.hasNext, hsz, hne, mergeAnswer, hLne] using ‹_›
  · -- a row begun is handed out
    rw [hstart hsz]
    exact ⟨ss, by simp [Zip.hasNext, hsz], by simp [Zip.hasNext, hsz], h⟩

end Zip

/-- **A zip** of inputs side by side hands out the rows of their lists, when every input's
`hasNext` answers whether its sequence goes on. A failure in the middle of a row keeps the cells
read, and the next call reads the rest of the row. -/
theorem Feed.Transient.zip {n : ℕ} {fs : (i : ℕ) → Feed (σs i) α}
    {Rs : (i : ℕ) → σs i → Stream'.Seq α → ℕ → Prop} (hin : ∀ i < n, (fs i).Transient (Rs i))
    (htr : ∀ i < n, (fs i).Truthful (Rs i)) (weak : Bool) :
    (Zip.feed weak (Feed.sideBySide fs n)).Transient (Zip.Zipped weak n Rs) where
  hasNext := by
    rintro ⟨row, ss⟩ _ k ⟨L, ks, hrow, h, hsum, hstart, rfl⟩
    obtain ⟨ss', hh, hh', h'⟩ := Zip.hasNext_holding hin htr weak h hstart
    exact ⟨_, (row, ss'), by simp [Zip.feed, hh], by simp [Zip.feed, hh'],
      ⟨L, ks, hrow, h', hsum, hstart, rfl⟩, .inl (head_zipRows_isSome weak L).symm⟩
  tryNext := by
    rintro ⟨row, ss⟩ _ k ⟨L, ks, hrow, h, hsum, hstart, rfl⟩
    obtain ⟨ss₁, hh, -, h₁⟩ := Zip.hasNext_holding hin htr weak h hstart
    cases hans : mergeAnswer weak L with
    | false =>
      -- the zip has ended
      have hnil : zipRows weak L = [] := by
        have := isEmpty_zipRows weak L
        rw [hans] at this
        simpa using this
      refine .inr ⟨(row, ss₁), by simp [Zip.feed, Zip.tryNext, hh, hans, hnil], L, ks, hrow, h₁,
        hsum, hstart, by simp [hnil]⟩
    | true =>
      have hsz : row.size ≤ n := h.2.1
      rcases Sides.fillFrom_cases hin (n - row.size) row.size (by omega) hrow h₁ with
        ⟨e, row', ss', ks', he, hlt, hfill, hrow', h'⟩ | ⟨ss', hfill, h'⟩
      · -- the failure keeps the cells read
        refine .inl ⟨e, (row', ss'), _, he, lt_of_lt_of_le hlt hsum, ?_,
          L, ks', hrow', h', le_rfl, fun _ => hans, rfl⟩
        simp [Zip.feed, Zip.tryNext, hh, hans, Zip.fill, hfill]
      · -- the row is complete
        refine .inr ⟨(#[], ss'), ?_, L.map List.tail, ks, by simp, h'.tails, hsum, by simp, ?_⟩
        · simp [Zip.feed, Zip.tryNext, hh, hans, Zip.fill, hfill, zipRows_of_answer hans]
        · rw [zipRows_of_answer hans]
          simp

/-! ## Merge -/

/-- What a merge by the selector `pick` hands out of the lists `L`: while the merge goes on, the
head of the list the selector names, then the merge of what is left. -/
def merged (pick : List (Option α) → Option ℕ) (weak : Bool) (L : List (List α)) : List α :=
  if mergeAnswer weak L then
    match pick (L.map List.head?) with
    | some i =>
      match _ : L[i]? with
      | some (a :: rest) => a :: merged pick weak (L.set i rest)
      | _ => []
    | none => []
  else []
termination_by L.flatten.length
decreasing_by
  -- the list named loses its head
  have hlen := (flatten_perm_set ‹_›).length_eq
  rw [List.length_cons] at hlen
  omega

/-- A selector that names a present head whenever there is one. -/
def Merge.Picks (pick : List (Option α) → Option ℕ) : Prop :=
  ∀ hs : List (Option α), hs.any Option.isSome = true →
    ∃ i a, pick hs = some i ∧ hs[i]? = some (some a)

/-- The selector by least head names a present head whenever there is one. -/
theorem selectMinBy_picks (cmp : α → α → Ordering) : Merge.Picks (selectMinBy cmp) := by
  intro hs hany
  cases hsel : selectMinBy cmp hs with
  | none =>
    obtain ⟨x, hx, hsome⟩ := List.any_eq_true.1 hany
    rw [selectMinBy_eq_none cmp hsel x hx] at hsome
    exact absurd hsome (by simp)
  | some i =>
    obtain ⟨a, ha⟩ := selectMinBy_getElem? cmp hsel
    exact ⟨i, a, rfl, ha⟩

section Merged

variable {pick : List (Option α) → Option ℕ} {weak : Bool} {L : List (List α)}

/-- A merge that goes on has a present head. -/
theorem any_heads_of_mergeAnswer (h : mergeAnswer weak L = true) :
    (L.map List.head?).any Option.isSome = true := by
  have hany : L.any (!·.isEmpty) = true := by
    cases weak with
    | true => simpa [mergeAnswer] using h
    | false =>
      cases L with
      | nil => simp [mergeAnswer] at h
      | cons l L => simp_all [mergeAnswer]
  rw [← any_isSome_heads, List.any_toArray] at hany
  exact hany

theorem merged_of_not (h : mergeAnswer weak L = false) : merged pick weak L = [] := by
  rw [merged, if_neg (by simp [h])]

/-- **One step of the merge.** While the merge goes on, a selector that names a present head
hands out the head of that list first. -/
theorem merged_of_answer (hpick : Merge.Picks pick) (h : mergeAnswer weak L = true) :
    ∃ i a rest, pick (L.map List.head?) = some i ∧ L[i]? = some (a :: rest) ∧
      merged pick weak L = a :: merged pick weak (L.set i rest) := by
  obtain ⟨i, a, hsel, hi⟩ := hpick _ (any_heads_of_mergeAnswer h)
  rw [List.getElem?_map] at hi
  obtain ⟨l, hl, hla⟩ := Option.map_eq_some_iff.1 hi
  obtain ⟨rest, rfl⟩ := List.head?_eq_some_iff.1 hla
  refine ⟨i, a, rest, hsel, hl, ?_⟩
  rw [merged, if_pos h]
  simp only [hsel]
  split <;> simp_all

/-- A merge by a selector that names a present head has an element ahead exactly when it goes
on. -/
theorem head_merged_isSome (hpick : Merge.Picks pick) (weak : Bool) (L : List (List α)) :
    (Stream'.Seq.ofList (merged pick weak L)).head.isSome = mergeAnswer weak L := by
  rw [Feed.seq_head_ofList]
  cases h : mergeAnswer weak L with
  | false => simp [merged_of_not h]
  | true =>
    obtain ⟨i, a, rest, -, -, hm⟩ := merged_of_answer hpick h
    simp [hm]

end Merged

namespace Merge

variable {n : ℕ} {fs : (i : ℕ) → Feed (σs i) α} {Rs : (i : ℕ) → σs i → Stream'.Seq α → ℕ → Prop}
  {ss : (j : ℕ) → σs j} {pick : List (Option α) → Option ℕ} {weak : Bool}
  {p : MergeState α Unit × ((j : ℕ) → σs j)} {ys : Stream'.Seq α} {k : ℕ}

/-- What a merge by the stateless selector `pick` of inputs side by side still hands out: the
merge of the lists its inputs hold, the heads read so far the heads of these lists, and a
failure met while reading them kept for the next call. -/
def Merged (pick : List (Option α) → Option ℕ) (weak : Bool) (n : ℕ)
    (Rs : (i : ℕ) → σs i → Stream'.Seq α → ℕ → Prop) (p : MergeState α Unit × ((j : ℕ) → σs j))
    (ys : Stream'.Seq α) (k : ℕ) : Prop :=
  ∃ L ks, p.1.heads.toList = (L.take p.1.heads.size).map List.head? ∧
    Sides.Holding n Rs p.1.heads.size p.2 L ks ∧
    ∑ i ∈ Finset.range n, ks i + (if p.1.failure.isSome then 1 else 0) ≤ k ∧
    p.1.failure ≠ some .exhausted ∧ ys = ↑(merged pick weak L)

/-- A merge that has read every head and keeps no failure. -/
def Full (pick : List (Option α) → Option ℕ) (weak : Bool) (n : ℕ)
    (Rs : (i : ℕ) → σs i → Stream'.Seq α → ℕ → Prop) (p : MergeState α Unit × ((j : ℕ) → σs j))
    (ys : Stream'.Seq α) (k : ℕ) : Prop :=
  p.1.failure = none ∧ ∃ L ks, p.1.heads = (L.map List.head?).toArray ∧
    Sides.Holding n Rs n p.2 L ks ∧ ∑ i ∈ Finset.range n, ks i ≤ k ∧ ys = ↑(merged pick weak L)

theorem Full.toMerged (h : Full pick weak n Rs p ys k) : Merged pick weak n Rs p ys k := by
  obtain ⟨hnf, L, ks, hheads, hs, hsum, rfl⟩ := h
  have hsize : p.1.heads.size = n := by rw [hheads, List.size_toArray, List.length_map, hs.1]
  refine ⟨L, ks, ?_, by rwa [hsize], by simpa [hnf] using hsum, by simp [hnf], rfl⟩
  rw [hsize, hheads, ← hs.1, List.take_length]

variable (hin : ∀ i < n, (fs i).Transient (Rs i)) (hpick : Picks pick)
include hin hpick

/-- Asked whether it has more, a merge either keeps a failure met while reading its heads and
answers `true`, or has read every head and answers whether it goes on; asking again answers the
same and moves nothing. -/
theorem hasNext_merged {st : MergeState α Unit} (h : Merged pick weak n Rs (st, ss) ys k) :
    ∃ b st' ss', Merge.hasNext weak (Feed.sideBySide fs n) st ss = (.ok b, st', ss') ∧
      Merge.hasNext weak (Feed.sideBySide fs n) st' ss' = (.ok b, st', ss') ∧
      ((b = true ∧ Merged pick weak n Rs (st', ss') ys k ∧
          ∃ e, e ≠ .exhausted ∧ st'.failure = some e) ∨
        (b = ys.head.isSome ∧ Full pick weak n Rs (st', ss') ys k)) := by
  obtain ⟨L, ks, hrow, hs, hsum, hne, rfl⟩ := h
  cases hf : st.failure with
  | some e =>
    -- a failure kept is answered for
    refine ⟨true, st, ss, by simp [Merge.hasNext, hf], by simp [Merge.hasNext, hf],
      .inl ⟨rfl, ⟨L, ks, hrow, hs, hsum, hne, rfl⟩, e, ?_, hf⟩⟩
    rintro rfl
    exact hne hf
  | none =>
    have hsz : st.heads.size ≤ n := hs.2.1
    rcases Sides.fillFrom_cases hin (n - st.heads.size) st.heads.size (by omega) hrow hs with
      ⟨e, row', ss', ks', he, hlt, hfill, hrow', h'⟩ | ⟨ss', hfill, h'⟩
    · -- the failure is kept with the heads read so far
      refine ⟨true, { st with heads := row', failure := some e }, ss',
        by simp [Merge.hasNext, hf, Zip.fill, hfill], by simp [Merge.hasNext],
        .inl ⟨rfl, ⟨L, ks', hrow', h', ?_, by simpa using he, rfl⟩, e, he, rfl⟩⟩
      simp only [hf, Option.isSome_none] at hsum
      simp
      omega
    · -- every head is read
      have hsize : (L.map List.head?).toArray.size = n := by simp [h'.1]
      have hagain : Zip.fill (Feed.sideBySide fs n) (L.map List.head?).toArray ss' =
          (.ok (), (L.map List.head?).toArray, ss') := by
        rw [Zip.fill, hsize, Feed.drop_sideBySide_of_le le_rfl, Zip.fillFrom]
      refine ⟨_, _, ss', Merge.hasNext_of_fill weak hf hfill,
        Merge.hasNext_of_fill weak hf hagain, .inr ⟨?_, hf, L, ks, rfl, h', ?_, rfl⟩⟩
      · rw [head_merged_isSome hpick]
      · simpa [hf] using hsum

end Merge

/-- **A merge** of inputs side by side by a selector that keeps no state and names a present
head whenever there is one hands out the merge of their lists, whatever their failures. A
failure met while reading the heads is kept and handed out by the next call; a failure of the
refill leaves the head named in place, and the retried call names it again. -/
theorem Feed.Transient.merge {n : ℕ} {fs : (i : ℕ) → Feed (σs i) α}
    {Rs : (i : ℕ) → σs i → Stream'.Seq α → ℕ → Prop} (hin : ∀ i < n, (fs i).Transient (Rs i))
    {pick : List (Option α) → Option ℕ} (hpick : Merge.Picks pick) (weak : Bool) :
    (Merge.feed (Merge.stateless pick) weak (Feed.sideBySide fs n)).Transient
      (Merge.Merged pick weak n Rs) where
  hasNext := by
    rintro ⟨st, ss⟩ ys k h
    obtain ⟨b, st', ss', hh, hh', hb⟩ := Merge.hasNext_merged hin hpick h
    refine ⟨b, (st', ss'), by simp [Merge.feed, hh], by simp [Merge.feed, hh'], ?_⟩
    rcases hb with ⟨rfl, h', e, he, hf⟩ | ⟨rfl, hfull⟩
    · refine ⟨h', .inr ⟨rfl, e, ({ st' with failure := none }, ss'), he, ?_⟩⟩
      simp [Merge.feed, Merge.tryNext, hh', hf]
    · exact ⟨hfull.toMerged, .inl rfl⟩
  tryNext := by
    rintro ⟨st, ss⟩ ys k h
    obtain ⟨b, st', ss', hh, -, ⟨rfl, h', e, he, hf⟩ | ⟨rfl, hfull⟩⟩ := Merge.hasNext_merged hin hpick h
    · -- the failure kept is handed out
      obtain ⟨L, ks, hrow, hs, hsum, -, rfl⟩ := h'
      refine .inl ⟨e, ({ st' with failure := none }, ss'), ∑ i ∈ Finset.range n, ks i, he, ?_, ?_,
        L, ks, hrow, hs, by simp, by simp, rfl⟩
      · simp only [hf, Option.isSome_some, if_true] at hsum
        omega
      · simp [Merge.feed, Merge.tryNext, hh, hf]
    · obtain ⟨hnf, L, ks, hheads, hs, hsum, rfl⟩ := hfull
      obtain ⟨heads, failure, ⟨⟩⟩ := st'
      dsimp only at hnf hheads hs
      subst hnf hheads
      rw [head_merged_isSome hpick] at hh
      cases hans : mergeAnswer weak L with
      | false =>
        -- the merge has ended
        have hnil : merged pick weak L = [] := merged_of_not hans
        refine .inr ⟨(⟨(L.map List.head?).toArray, none, ()⟩, ss'), ?_,
          Merge.Full.toMerged ⟨rfl, L, ks, rfl, hs, hsum, by simp [hnil]⟩⟩
        simp [Merge.feed, Merge.tryNext, hh, hans, hnil, Feed.answer]
      | true =>
        obtain ⟨i, a, rest, hsel, hi, hm⟩ := merged_of_answer hpick hans
        have hiL : i < L.length := (List.getElem?_eq_some_iff.1 hi).1
        have hiN : i < n := hs.1 ▸ hiL
        have hrest : Sides.rest L n i = rest := by
          simp [Sides.rest, hiN, List.getD_eq_getElem?_getD, hi]
        have hsi := hs.2.2 i hiN
        rw [hrest] at hsi
        rcases (hin i hiN).pull hsi with ⟨e, t, k', he, hk, hp, ht⟩ | ⟨t, hp, ht⟩
        · -- the refill fails and the head stays
          refine .inl ⟨e, (⟨(L.map List.head?).toArray, none, ()⟩, Function.update ss' i t), _, he,
            lt_of_lt_of_le (Sides.sum_update_lt hiN hk) hsum, ?_,
            Merge.Full.toMerged ⟨rfl, L, _, rfl, hs.fail (by rwa [hrest]), le_rfl, hm ▸ rfl⟩⟩
          simp [Merge.feed, Merge.tryNext, hh, hans, Merge.stateless, hsel, hi,
            Feed.getElem?_sideBySide hiN, Feed.atIndex_pull, hp]
        · -- the head is handed out and the refill takes its place
          rw [Feed.seq_head_ofList] at hp
          rw [Feed.seq_tail_ofList] at ht
          refine .inr ⟨(⟨((L.set i rest).map List.head?).toArray, none, ()⟩, Function.update ss' i t),
            ?_, Merge.Full.toMerged ⟨rfl, L.set i rest, ks, rfl, hs.refill hiN ht, hsum, by simp [hm]⟩⟩
          simp [Merge.feed, Merge.tryNext, hh, hans, Merge.stateless, hsel, hi,
            Feed.getElem?_sideBySide hiN, Feed.atIndex_pull, hp, hm, Feed.answer, List.map_set]

end LazySeq
