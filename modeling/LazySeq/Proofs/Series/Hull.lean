import Mathlib
import LazySeq.Series.Linearize

/-!
# Hull chains in exact arithmetic

Read exactly, a segmentation computes in the rationals. There the check that `Fit.extend` makes
on the two hull chains alone is the check on every point of the run. Each point of the run is a
vertex of the lower chain or lies on or above the segment between two consecutive vertices
(`Hull.Supported`), and a residual that stays below a bound at both ends of a segment stays
below it at every point on or above the segment (`Hull.residual_le_of_above`). The upper chain is
the lower chain of the points reflected in the offset axis (`Hull.pushHull_upper`), which bounds
the residual from below (`Hull.Chain.abs_le_iff`).

`pushHull` keeps every point supported when the new point lies right of every vertex
(`Hull.Chain.push`): a vertex it drops lies on or above the segment from the vertex before it to
the new point, and so does everything the dropped vertex supported.

Offsets that repeat break this: a point straight above another makes no left turn, so it is
dropped from the lower chain and the upper chain alike, and nothing supports it afterwards.
-/

namespace LazySeq

/-- Exact arithmetic: the rationals, where every value is a number. -/
instance exactArith : FitArith ℚ where
  abs q := |q|
  isNaN _ := false
  decLt := inferInstance
  decLe := inferInstance

@[simp] theorem ofScientific_exact (m : ℕ) (s : Bool) (e : ℕ) :
    @OfScientific.ofScientific ℚ FitArith.toOfScientific m s e = OfScientific.ofScientific m s e :=
  rfl

@[simp] theorem zero_exact : (0.0 : ℚ) = 0 := by norm_num

@[simp] theorem one_exact : (1.0 : ℚ) = 1 := by norm_num

@[simp] theorem add_exact (a b : ℚ) : @HAdd.hAdd ℚ ℚ ℚ (@instHAdd ℚ FitArith.toAdd) a b = a + b :=
  rfl

@[simp] theorem sub_exact (a b : ℚ) : @HSub.hSub ℚ ℚ ℚ (@instHSub ℚ FitArith.toSub) a b = a - b :=
  rfl

@[simp] theorem mul_exact (a b : ℚ) : @HMul.hMul ℚ ℚ ℚ (@instHMul ℚ FitArith.toMul) a b = a * b :=
  rfl

@[simp] theorem div_exact (a b : ℚ) : @HDiv.hDiv ℚ ℚ ℚ (@instHDiv ℚ FitArith.toDiv) a b = a / b :=
  rfl

@[simp] theorem lt_exact (a b : ℚ) : @LT.lt ℚ FitArith.toLT a b ↔ a < b := Iff.rfl

@[simp] theorem le_exact (a b : ℚ) : @LE.le ℚ FitArith.toLE a b ↔ a ≤ b := Iff.rfl

@[simp] theorem abs_exact (q : ℚ) : FitArith.abs q = |q| := rfl

@[simp] theorem isNaN_exact (q : ℚ) : FitArith.isNaN q = false := rfl

theorem floatMax_exact (a b : ℚ) : floatMax a b = max a b := by
  simp only [floatMax, isNaN_exact, Bool.false_eq_true, if_false]
  split_ifs with h
  · exact (max_eq_left h.le).symm
  · exact (max_eq_right (not_lt.1 h)).symm

theorem cross_exact (o a b : Point ℚ) :
    cross o a b = (a.1 - o.1) * (b.2 - o.2) - (a.2 - o.2) * (b.1 - o.1) := rfl

/-- `pushHull` drops some of the newest vertices and puts the point in front. -/
theorem pushHull_eq_cons_drop {R : Type} [FitArith R] (lower : Bool) (p : Point R)
    (chain : List (Point R)) : ∃ k, pushHull lower p chain = p :: chain.drop k := by
  fun_induction pushHull lower p chain with
  | case1 a o rest turn hturn => exact ⟨0, rfl⟩
  | case2 a o rest turn hturn ih =>
    obtain ⟨k, hk⟩ := ih
    exact ⟨k + 1, hk⟩
  | case3 hull _ => exact ⟨0, rfl⟩

namespace Hull

variable {o a p q u v : Point ℚ} {c m B : ℚ}

/-- `q` lies between the offsets of `u` and `v` (`u` strictly left of `v`), on or above the
segment between them. -/
def Above (u v q : Point ℚ) : Prop :=
  u.1 < v.1 ∧ u.1 ≤ q.1 ∧ q.1 ≤ v.1 ∧ 0 ≤ cross u v q

/-- A vertex that makes no left turn towards `p` lies on or above the segment from the vertex
before it to `p`. -/
theorem above_of_not_left (hoa : o.1 < a.1) (hap : a.1 < p.1) (h : ¬cross o a p > 0) :
    Above o p a := by
  have hswap : cross o p a = -cross o a p := by
    simp only [cross_exact]; ring
  refine ⟨hoa.trans hap, hoa.le, hap.le, ?_⟩
  rw [hswap]
  linarith [not_lt.1 h]

/-- On or above `o`–`a`, with `a` on or above `o`–`p`: on or above `o`–`p`. -/
theorem Above.trans_left (hq : Above o a q) (ha : Above o p a) : Above o p q := by
  obtain ⟨hoa, hoq, hqa, hcq⟩ := hq
  obtain ⟨hop, -, hap, hca⟩ := ha
  -- `cross o p q`, scaled by the width of `o`–`a`, is a nonnegative combination of the two
  have key : (a.1 - o.1) * cross o p q = (p.1 - o.1) * cross o a q + (q.1 - o.1) * cross o p a := by
    simp only [cross_exact]; ring
  refine ⟨hop, hoq, hqa.trans hap, ?_⟩
  have hsum : 0 ≤ (a.1 - o.1) * cross o p q := by
    rw [key]
    exact add_nonneg (mul_nonneg (by linarith) hcq) (mul_nonneg (by linarith) hca)
  exact (mul_nonneg_iff_of_pos_left (sub_pos.2 hoa)).1 hsum

/-- On or above `a`–`p`, with `a` on or above `o`–`p`: on or above `o`–`p`. -/
theorem Above.trans_right (hq : Above a p q) (ha : Above o p a) : Above o p q := by
  obtain ⟨hap, haq, hqp, hcq⟩ := hq
  obtain ⟨hop, hoa, -, hca⟩ := ha
  have key : (p.1 - a.1) * cross o p q = (p.1 - q.1) * cross o p a + (p.1 - o.1) * cross a p q := by
    simp only [cross_exact]; ring
  refine ⟨hop, hoa.trans haq, hqp, ?_⟩
  have hsum : 0 ≤ (p.1 - a.1) * cross o p q := by
    rw [key]
    exact add_nonneg (mul_nonneg (by linarith) hca) (mul_nonneg (by linarith) hcq)
  exact (mul_nonneg_iff_of_pos_left (sub_pos.2 hap)).1 hsum

/-- The residual `c + m · x - y` of a line, below `B` at both ends of a segment, is below `B` at
every point on or above it. -/
theorem residual_le_of_above (hq : Above u v q) (hu : c + m * u.1 - u.2 ≤ B)
    (hv : c + m * v.1 - v.2 ≤ B) : c + m * q.1 - q.2 ≤ B := by
  obtain ⟨huv, huq, hqv, hc⟩ := hq
  -- the residual at `q` is the interpolation of the end residuals, less the height above
  have key : (v.1 - u.1) * (c + m * q.1 - q.2) =
      (v.1 - q.1) * (c + m * u.1 - u.2) + (q.1 - u.1) * (c + m * v.1 - v.2) - cross u v q := by
    simp only [cross_exact]; ring
  have hle : (v.1 - u.1) * (c + m * q.1 - q.2) ≤ (v.1 - u.1) * B := by
    rw [key]
    nlinarith [mul_le_mul_of_nonneg_left hu (sub_nonneg.2 hqv),
      mul_le_mul_of_nonneg_left hv (sub_nonneg.2 huq)]
  exact le_of_mul_le_mul_left hle (sub_pos.2 huv)

/-- `q` is a vertex of the chain (kept newest first) or lies on or above the segment between two
consecutive vertices. -/
def Supported (chain : List (Point ℚ)) (q : Point ℚ) : Prop :=
  q ∈ chain ∨ ∃ v u, (v, u) ∈ chain.zip chain.tail ∧ Above u v q

theorem Supported.cons {chain : List (Point ℚ)} (hq : Supported chain q) :
    Supported (p :: chain) q := by
  rcases hq with hq | ⟨v, u, hvu, habove⟩
  · exact .inl (List.mem_cons_of_mem p hq)
  · refine .inr ⟨v, u, ?_, habove⟩
    cases chain with
    | nil => simp at hvu
    | cons a rest => exact List.mem_cons_of_mem _ hvu

/-- Pushing a point right of every vertex of a chain keeps supported every point that was
supported, and every point on or above the segment from the newest vertex to the new point. -/
theorem supported_pushHull {chain : List (Point ℚ)} (hsorted : chain.Pairwise (fun a b => b.1 < a.1))
    (hp : ∀ v ∈ chain, v.1 < p.1) (hq : Supported chain q ∨ ∃ h ∈ chain.head?, Above h p q) :
    Supported (pushHull true p chain) q := by
  fun_induction pushHull true p chain with
  | case1 a o rest turn hturn =>
    -- `a` is kept: the segment `a`–`p` becomes the newest one
    rcases hq with hq | ⟨h, hh, habove⟩
    · exact hq.cons
    · simp only [List.head?_cons, Option.mem_def, Option.some.injEq] at hh
      subst hh
      exact .inr ⟨p, a, by simp, habove⟩
  | case2 a o rest turn hturn ih =>
    -- `a` is dropped: it lies on or above `o`–`p`, and so does everything it supported
    have hoa : o.1 < a.1 := List.rel_of_pairwise_cons hsorted (by simp)
    have hap : a.1 < p.1 := hp a (by simp)
    have ha : Above o p a := above_of_not_left hoa hap (by simpa [turn] using hturn)
    refine ih (List.Pairwise.of_cons hsorted) (fun v hv => hp v (List.mem_cons_of_mem a hv)) ?_
    rcases hq with (hq | ⟨v, u, hvu, habove⟩) | ⟨h, hh, habove⟩
    · rcases List.mem_cons.1 hq with rfl | hq
      · exact .inr ⟨o, by simp, ha⟩
      · exact .inl (.inl hq)
    · simp only [List.tail_cons, List.zip_cons_cons, List.mem_cons, Prod.mk.injEq] at hvu
      rcases hvu with ⟨rfl, rfl⟩ | hvu
      · exact .inr ⟨u, by simp, habove.trans_left ha⟩
      · exact .inl (.inr ⟨v, u, hvu, habove⟩)
    · simp only [List.head?_cons, Option.mem_def, Option.some.injEq] at hh
      subst hh
      exact .inr ⟨o, by simp, habove.trans_right ha⟩
  | case3 hull hhull =>
    -- fewer than two vertices: nothing is dropped
    rcases hq with hq | ⟨h, hh, habove⟩
    · exact hq.cons
    · match hull, hh with
      | [a], hh =>
        simp only [List.head?_cons, Option.mem_def, Option.some.injEq] at hh
        subst hh
        exact .inr ⟨p, a, by simp, habove⟩
      | a :: o :: rest, _ => exact absurd rfl (hhull a o rest)

/-- A lower hull chain of a run, newest vertex first: its vertices are points of the run with
offsets decreasing along the chain, and it supports every point of the run. -/
structure Chain (chain pts : List (Point ℚ)) : Prop where
  subset : ∀ v ∈ chain, v ∈ pts
  sorted : chain.Pairwise (fun a b => b.1 < a.1)
  supported : ∀ q ∈ pts, Supported chain q

theorem Chain.single (p : Point ℚ) : Chain [p] [p] :=
  ⟨fun _ hv => hv, List.pairwise_singleton _ _, fun _ hq => .inl hq⟩

/-- Pushing a point right of the whole run keeps a lower chain a lower chain. -/
theorem Chain.push {chain pts : List (Point ℚ)} (h : Chain chain pts) (hp : ∀ q ∈ pts, q.1 < p.1) :
    Chain (pushHull true p chain) (pts ++ [p]) := by
  have hpc : ∀ v ∈ chain, v.1 < p.1 := fun v hv => hp v (h.subset v hv)
  obtain ⟨k, hk⟩ := pushHull_eq_cons_drop true p chain
  refine ⟨?_, ?_, ?_⟩
  · rw [hk]
    intro v hv
    rcases List.mem_cons.1 hv with rfl | hv
    · simp
    · exact List.mem_append_left _ (h.subset v (List.mem_of_mem_drop hv))
  · rw [hk]
    exact List.pairwise_cons.2 ⟨fun v hv => hpc v (List.mem_of_mem_drop hv),
      h.sorted.sublist (List.drop_sublist k chain)⟩
  · intro q hq
    rcases List.mem_append.1 hq with hq | hq
    · exact supported_pushHull h.sorted hpc (.inl (h.supported q hq))
    · rw [List.mem_singleton.1 hq, hk]
      exact .inl List.mem_cons_self

/-- A residual below `B` at every vertex of a chain is below `B` at every point it supports. -/
theorem residual_le_of_supported {chain : List (Point ℚ)}
    (hv : ∀ v ∈ chain, c + m * v.1 - v.2 ≤ B) (hq : Supported chain q) :
    c + m * q.1 - q.2 ≤ B := by
  rcases hq with hq | ⟨v, u, hvu, habove⟩
  · exact hv q hq
  · have hmem := List.of_mem_zip hvu
    exact residual_le_of_above habove (hv u (List.mem_of_mem_tail hmem.2)) (hv v hmem.1)

/-- The reflection of a point in the offset axis. -/
def flip (p : Point ℚ) : Point ℚ := (p.1, -p.2)

@[simp] theorem flip_fst (p : Point ℚ) : (flip p).1 = p.1 := rfl

@[simp] theorem flip_snd (p : Point ℚ) : (flip p).2 = -p.2 := rfl

@[simp] theorem flip_flip (p : Point ℚ) : flip (flip p) = p := by simp [flip]

theorem cross_flip (o a b : Point ℚ) : cross (flip o) (flip a) (flip b) = -cross o a b := by
  simp only [cross_exact, flip_fst, flip_snd]; ring

/-- One step of `pushHull`, read exactly: a lower chain keeps a strict left turn, an upper chain a
strict right turn. -/
theorem pushHull_cons_cons (lower : Bool) (p a o : Point ℚ) (rest : List (Point ℚ)) :
    pushHull lower p (a :: o :: rest) =
      if (lower = true ∧ 0 < cross o a p) ∨ (lower = false ∧ cross o a p < 0) then
        p :: a :: o :: rest
      else pushHull lower p (o :: rest) := by
  rw [pushHull]
  cases lower <;> simp

/-- The upper chain is the lower chain of the reflected points, reflected back. -/
theorem pushHull_upper (p : Point ℚ) (chain : List (Point ℚ)) :
    (pushHull false p chain).map flip = pushHull true (flip p) (chain.map flip) := by
  induction chain using pushHull.induct false p with
  | case1 a o rest turn hturn =>
    have hright : cross o a p < 0 := by simpa [turn] using hturn
    have hleft : 0 < cross (flip o) (flip a) (flip p) := by rw [cross_flip]; linarith
    rw [pushHull_cons_cons, if_pos (.inr ⟨rfl, hright⟩), List.map_cons, List.map_cons,
      List.map_cons, pushHull_cons_cons, if_pos (.inl ⟨rfl, hleft⟩)]
  | case2 a o rest turn hturn ih =>
    have hright : ¬cross o a p < 0 := by simpa [turn] using hturn
    have hleft : ¬0 < cross (flip o) (flip a) (flip p) := by rw [cross_flip]; simpa using hright
    rw [pushHull_cons_cons, if_neg (by simpa using hright), ih]
    simp only [List.map_cons]
    rw [pushHull_cons_cons, if_neg (by simpa using hleft)]
  | case3 hull hhull =>
    match hull, hhull with
    | [], _ => rfl
    | [a], _ => rfl
    | a :: o :: rest, hhull => exact absurd rfl (hhull a o rest)

/-- The upper chain of a run, reflected, is a lower chain of the reflected run. -/
theorem Chain.push_upper {chain pts : List (Point ℚ)} (h : Chain (chain.map flip) (pts.map flip))
    (hp : ∀ q ∈ pts, q.1 < p.1) :
    Chain ((pushHull false p chain).map flip) ((pts ++ [p]).map flip) := by
  rw [pushHull_upper, List.map_append, List.map_singleton]
  refine h.push fun q hq => ?_
  obtain ⟨w, hw, rfl⟩ := List.mem_map.1 hq
  exact hp w hw

/-- With the lower chain of a run and the reflected upper chain, a line's residuals are within
`B` at every point of the run exactly when they are at every vertex of the two chains. -/
theorem Chain.abs_le_iff {lower upper pts : List (Point ℚ)} (hl : Chain lower pts)
    (hu : Chain (upper.map flip) (pts.map flip)) :
    ((∀ v ∈ lower, |c + m * v.1 - v.2| ≤ B) ∧ ∀ v ∈ upper, |c + m * v.1 - v.2| ≤ B) ↔
      ∀ q ∈ pts, |c + m * q.1 - q.2| ≤ B := by
  constructor
  · rintro ⟨hlo, hup⟩ q hq
    -- the lower chain bounds the residual from above
    have habove : c + m * q.1 - q.2 ≤ B :=
      residual_le_of_supported (fun v hv => (abs_le.1 (hlo v hv)).2) (hl.supported q hq)
    -- the reflected upper chain bounds the reflected residual, its negation, from above
    have hbelow : -c + -m * (flip q).1 - (flip q).2 ≤ B := by
      refine residual_le_of_supported ?_ (hu.supported (flip q) (List.mem_map_of_mem hq))
      intro w hw
      obtain ⟨v, hv, rfl⟩ := List.mem_map.1 hw
      have := (abs_le.1 (hup v hv)).1
      simp only [flip_fst, flip_snd]
      linarith
    simp only [flip_fst, flip_snd] at hbelow
    exact abs_le.2 ⟨by linarith, habove⟩
  · intro hall
    refine ⟨fun v hv => hall v (hl.subset v hv), fun v hv => hall v ?_⟩
    obtain ⟨w, hw, hwv⟩ := List.mem_map.1 (hu.subset (flip v) (List.mem_map_of_mem hv))
    rw [← flip_flip w, hwv, flip_flip] at hw
    exact hw

end Hull

end LazySeq
