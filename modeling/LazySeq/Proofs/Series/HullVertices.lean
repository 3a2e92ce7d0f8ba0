import Mathlib
import LazySeq.Proofs.Series.Hull

/-!
# The hull chains hold every vertex of the convex hull

A run keeps two chains of its points, pushing each new point onto both with `pushHull`: the lower
chain keeps left turns and the upper chain right turns. `pushAll lower pts` is the chain after
pushing the points one at a time.

Every chain point is a pushed point, whatever the points: a push only drops points and adds the new
one. With offsets that strictly increase the chains also hold every vertex of the convex hull of
the points. A point on neither chain lies on or above a segment between two vertices of the
lower chain (`Hull.Chain`) and on or below a segment between two vertices of the upper chain, so
it is in the convex hull of those four other points (`mem_convexHull_of_between`) and is no
vertex.

With offsets that repeat this fails. A point straight above two others makes no left turn and no
right turn with them, so a later push drops it from both chains even when it is the topmost point:
pushing `(0, 0)`, `(0, 10)`, `(0, 5)` leaves `(0, 5)` and `(0, 0)` on both chains, and the vertex
`(0, 10)` on neither (`repeated_offset_drops_hull_vertex`).

**Main statement.** `hull_chains_hold_vertices`.
-/

namespace LazySeq

variable {R : Type} [FitArith R]

/-- The chain after pushing the points one at a time, in order, onto an empty chain. -/
def pushAll (lower : Bool) (pts : List (Point R)) : List (Point R) :=
  pts.foldl (fun chain p => pushHull lower p chain) []

@[simp] theorem pushAll_nil (lower : Bool) : pushAll lower ([] : List (Point R)) = [] := rfl

@[simp] theorem pushAll_append_singleton (lower : Bool) (pts : List (Point R)) (p : Point R) :
    pushAll lower (pts ++ [p]) = pushHull lower p (pushAll lower pts) := by
  simp [pushAll]

/-- A chain holds only pushed points: a push drops some points and adds the new one. -/
theorem mem_of_mem_pushAll (lower : Bool) (pts : List (Point R)) {v : Point R}
    (hv : v ∈ pushAll lower pts) : v ∈ pts := by
  induction pts using List.reverseRecOn with
  | nil => simp at hv
  | append_singleton pts p ih =>
    rw [pushAll_append_singleton] at hv
    obtain ⟨k, hk⟩ := pushHull_eq_cons_drop lower p (pushAll lower pts)
    rw [hk] at hv
    rcases List.mem_cons.1 hv with rfl | hv
    · exact List.mem_append_right _ List.mem_cons_self
    · exact List.mem_append_left _ (ih (List.mem_of_mem_drop hv))

namespace Hull

/-! ## Points between the chains -/

/-- The point of the segment `u`–`v` at an offset `x` between theirs. A point at offset `x` lies
on or above the segment exactly as far as it lies above that point: the cross product is the
width of the segment times the height. -/
theorem exists_mem_segment_at {u v : Point ℚ} {x : ℚ} (huv : u.1 < v.1) (hu : u.1 ≤ x)
    (hv : x ≤ v.1) :
    ∃ a ∈ segment ℚ u v, a.1 = x ∧
      ∀ q : Point ℚ, q.1 = x → cross u v q = (v.1 - u.1) * (q.2 - a.2) := by
  have hw : 0 < v.1 - u.1 := sub_pos.2 huv
  set t := (x - u.1) / (v.1 - u.1) with ht
  have ht0 : 0 ≤ t := div_nonneg (sub_nonneg.2 hu) hw.le
  have ht1 : t ≤ 1 := (div_le_one hw).2 (by linarith)
  have hwt : (v.1 - u.1) * t = x - u.1 := by
    rw [ht]
    field_simp
  refine ⟨(1 - t) • u + t • v, ⟨1 - t, t, by linarith, ht0, by ring, rfl⟩, ?_, fun q hq => ?_⟩
  · simp only [Prod.fst_add, Prod.smul_fst, smul_eq_mul]
    linarith
  · simp only [cross_exact, Prod.snd_add, Prod.smul_snd, smul_eq_mul, hq]
    linear_combination (v.2 - u.2) * hwt

/-- A point on or above a segment `u`–`v` and on or below a segment `u'`–`v'` (its reflection on
or above the reflected segment) is in the convex hull of the four ends: it lies between the
points of the two segments at its offset. -/
theorem mem_convexHull_of_between {u v u' v' q : Point ℚ} (hlo : Above u v q)
    (hup : Above (flip u') (flip v') (flip q)) : q ∈ convexHull ℚ {u, v, u', v'} := by
  obtain ⟨huv, huq, hqv, hcross⟩ := hlo
  obtain ⟨huv', huq', hqv', hcross'⟩ := hup
  simp only [flip_fst] at huv' huq' hqv'
  obtain ⟨a, ha, ha1, hca⟩ := exists_mem_segment_at huv huq hqv
  obtain ⟨b, hb, hb1, hcb⟩ := exists_mem_segment_at huv' huq' hqv'
  -- `q` is above the lower point and below the upper one
  have hqa : a.2 ≤ q.2 := by
    rw [hca q rfl] at hcross
    linarith [(mul_nonneg_iff_of_pos_left (sub_pos.2 huv)).1 hcross]
  have hqb : q.2 ≤ b.2 := by
    rw [cross_flip, hcb q rfl] at hcross'
    have : 0 ≤ (v'.1 - u'.1) * (b.2 - q.2) := by linarith
    linarith [(mul_nonneg_iff_of_pos_left (sub_pos.2 huv')).1 this]
  -- so `q` is on the vertical segment between them
  have hq : q ∈ segment ℚ a b := by
    have hy : q.2 ∈ segment ℚ a.2 b.2 := by
      rw [segment_eq_Icc (hqa.trans hqb)]
      exact ⟨hqa, hqb⟩
    rw [show a = (q.1, a.2) from Prod.ext ha1 rfl, show b = (q.1, b.2) from Prod.ext hb1 rfl,
      ← Prod.image_mk_segment_right]
    exact ⟨q.2, hy, rfl⟩
  exact (convex_convexHull ℚ _).segment_subset (segment_subset_convexHull (by simp) (by simp) ha)
    (segment_subset_convexHull (by simp) (by simp) hb) hq

theorem flip_injective : Function.Injective flip := Function.Involutive.injective flip_flip

/-- A point in the convex hull of the other points of a set is no vertex of its convex hull. -/
theorem not_mem_extremePoints {S : Set (Point ℚ)} {q : Point ℚ}
    (hq : q ∈ convexHull ℚ (S \ {q})) : q ∉ (convexHull ℚ S).extremePoints ℚ := by
  rw [(convex_convexHull ℚ S).mem_extremePoints_iff_mem_sdiff_convexHull_sdiff]
  rintro ⟨-, hnot⟩
  refine hnot (convexHull_mono ?_ hq)
  exact Set.sdiff_subset_sdiff_left (subset_convexHull ℚ S)

/-- **The two chains hold the vertices.** With a lower chain of a run and the reflection of an
upper chain, every vertex of the convex hull of the run is on one of the chains. -/
theorem Chain.mem_of_mem_extremePoints {lower upper pts : List (Point ℚ)} (hl : Chain lower pts)
    (hu : Chain (upper.map flip) (pts.map flip)) {q : Point ℚ}
    (hq : q ∈ (convexHull ℚ {p | p ∈ pts}).extremePoints ℚ) : q ∈ lower ∨ q ∈ upper := by
  have hqp : q ∈ ({p | p ∈ pts} : Set (Point ℚ)) := extremePoints_convexHull_subset hq
  rw [Set.mem_ofPred_eq] at hqp
  by_contra hnot
  obtain ⟨hql, hqu⟩ := not_or.1 hnot
  -- the upper chain, reflected back, is made of points of the run
  have hup_pts : ∀ w ∈ upper, w ∈ pts := fun w hw =>
    (List.mem_map_of_injective flip_injective).1 (hu.subset (flip w) (List.mem_map_of_mem hw))
  rcases hl.supported q hqp with hmem | ⟨v, u, hvu, hlo⟩
  · exact hql hmem
  rcases hu.supported (flip q) (List.mem_map_of_mem hqp) with hmem | ⟨v', u', hvu', hup⟩
  · exact hqu ((List.mem_map_of_injective flip_injective).1 hmem)
  obtain ⟨hv, hu'⟩ := List.of_mem_zip hvu
  obtain ⟨hv', hu''⟩ := List.of_mem_zip hvu'
  obtain ⟨x', hx', rfl⟩ := List.mem_map.1 hv'
  obtain ⟨y', hy', rfl⟩ := List.mem_map.1 (List.mem_of_mem_tail hu'')
  have hu := List.mem_of_mem_tail hu'
  -- the four ends are points of the run other than `q`, which is on neither chain
  have hends : ({u, v, y', x'} : Set (Point ℚ)) ⊆ {p | p ∈ pts} \ {q} := by
    intro w hw
    simp only [Set.mem_insert_iff, Set.mem_singleton_iff] at hw
    rcases hw with rfl | rfl | rfl | rfl
    · exact ⟨hl.subset w hu, fun h => hql (h ▸ hu)⟩
    · exact ⟨hl.subset w hv, fun h => hql (h ▸ hv)⟩
    · exact ⟨hup_pts w hy', fun h => hqu (h ▸ hy')⟩
    · exact ⟨hup_pts w hx', fun h => hqu (h ▸ hx')⟩
  exact not_mem_extremePoints (convexHull_mono hends (mem_convexHull_of_between hlo hup)) hq

/-- Pushing points with increasing offsets builds a lower chain of them, and an upper chain whose
reflection is a lower chain of the reflected points. -/
theorem chain_pushAll {pts : List (Point ℚ)} (hx : pts.Pairwise fun p q => p.1 < q.1) :
    Chain (pushAll true pts) pts ∧ Chain ((pushAll false pts).map flip) (pts.map flip) := by
  induction pts using List.reverseRecOn with
  | nil => exact ⟨⟨by simp, .nil, by simp⟩, ⟨by simp, .nil, by simp⟩⟩
  | append_singleton pts p ih =>
    obtain ⟨hpts, -, hlast⟩ := List.pairwise_append.1 hx
    have hp : ∀ q ∈ pts, q.1 < p.1 := fun q hq => hlast q hq p List.mem_cons_self
    obtain ⟨hlo, hup⟩ := ih hpts
    rw [pushAll_append_singleton, pushAll_append_singleton]
    exact ⟨hlo.push hp, hup.push_upper hp⟩

end Hull

/-- **The hull chains hold exactly points of the run, and every vertex of its hull.** Read
exactly, after pushing any points one at a time onto a lower and an upper chain, every chain point
is a pushed point; and when the offsets strictly increase, every vertex of the convex hull of the
pushed points is on the lower or the upper chain. -/
theorem hull_chains_hold_vertices (pts : List (Point ℚ)) :
    (∀ v, v ∈ pushAll true pts ∨ v ∈ pushAll false pts → v ∈ pts) ∧
      (pts.Pairwise (fun p q => p.1 < q.1) →
        ∀ q ∈ (convexHull ℚ {p | p ∈ pts}).extremePoints ℚ,
          q ∈ pushAll true pts ∨ q ∈ pushAll false pts) := by
  refine ⟨fun v hv => ?_, fun hx q hq => ?_⟩
  · rcases hv with hv | hv
    · exact mem_of_mem_pushAll true pts hv
    · exact mem_of_mem_pushAll false pts hv
  · obtain ⟨hlo, hup⟩ := Hull.chain_pushAll hx
    exact hlo.mem_of_mem_extremePoints hup hq

/-- Four points zigzagging with increasing offsets: the chains hold the vertices of their hull. -/
theorem hull_chains_hold_vertices_zigzag :
    let pts : List (Point ℚ) := [(0, 0), (1, 2), (2, 1), (3, 3)]
    pts.Pairwise (fun p q => p.1 < q.1) ∧
      ∀ q ∈ (convexHull ℚ {p | p ∈ pts}).extremePoints ℚ,
        q ∈ pushAll true pts ∨ q ∈ pushAll false pts := by
  intro pts
  have hx : pts.Pairwise (fun p q => p.1 < q.1) := by
    norm_num [pts]
  exact ⟨hx, (hull_chains_hold_vertices pts).2 hx⟩

/-- **Offsets that repeat drop a vertex.** Pushing `(0, 0)`, `(0, 10)`, `(0, 5)`, with offsets that
do not decrease, leaves `(0, 5)` and `(0, 0)` on both chains: the topmost point `(0, 10)`, a vertex
of the hull of the three, is on neither. -/
theorem repeated_offset_drops_hull_vertex :
    let pts : List (Point ℚ) := [(0, 0), (0, 10), (0, 5)]
    pts.Pairwise (fun p q => p.1 ≤ q.1) ∧ (0, 10) ∈ (convexHull ℚ {p | p ∈ pts}).extremePoints ℚ ∧
      (0, 10) ∉ pushAll true pts ∧ (0, 10) ∉ pushAll false pts := by
  intro pts
  -- the three points lie on the vertical line at offset 0, at most at height 10
  have hline : Convex ℚ {p : Point ℚ | p.1 = 0 ∧ p.2 ≤ 10} := by
    intro x hx y hy a b ha hb hab
    simp only [Set.mem_ofPred_eq, Prod.fst_add, Prod.snd_add, Prod.smul_fst, Prod.smul_snd,
      smul_eq_mul] at hx hy ⊢
    refine ⟨by rw [hx.1, hy.1]; ring, ?_⟩
    nlinarith [hx.2, hy.2]
  have hhull : convexHull ℚ {p | p ∈ pts} ⊆ {p : Point ℚ | p.1 = 0 ∧ p.2 ≤ 10} := by
    refine convexHull_min (fun p hp => ?_) hline
    simp only [Set.mem_ofPred_eq, pts, List.mem_cons, List.not_mem_nil, or_false] at hp ⊢
    rcases hp with rfl | rfl | rfl <;> norm_num
  refine ⟨by simp [pts], ?_, ?_, ?_⟩
  · -- a point of the hull whose open segment passes through `(0, 10)` is `(0, 10)` itself
    refine mem_extremePoints_iff_left.2 ⟨subset_convexHull ℚ _ (by simp [pts]), ?_⟩
    rintro x₁ h₁ x₂ h₂ ⟨a, b, ha, hb, hab, heq⟩
    obtain ⟨hx₁, hy₁⟩ := hhull h₁
    obtain ⟨-, hy₂⟩ := hhull h₂
    have hsnd : a * x₁.2 + b * x₂.2 = 10 := by
      simpa using congrArg Prod.snd heq
    refine Prod.ext hx₁ ?_
    nlinarith
  · simp [pts, pushAll, cross_exact, pushHull]
  · simp [pts, pushAll, cross_exact, pushHull]

end LazySeq
