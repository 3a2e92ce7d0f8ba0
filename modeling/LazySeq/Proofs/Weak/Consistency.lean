import LazySeq.Proofs.Binary64.Symmetry
import LazySeq.Series.Order
import LazySeq.Pipeline.Ops

/-!
# Weak equality and the weak order agree

A weak order is *consistent* on a set of values (`WeakConsistent`) when weak equality is
symmetric, the order reverses with its sides, and on those values the order is `Equal` exactly
when they are weakly equal. The exact orders of integers, texts, characters and booleans are
consistent on every value. Timestamps are compared by an exact order that comes with their type;
it is consistent on every value when it reverses with its sides and finds `Equal` exactly where
the type's `==` does (`WeakConsistent.ofLawfulOrd`), which is all the statements below assume of
it. The weak order of floats is consistent on every float
that is a number: weak equality asks `a == b` first, which fails for not-a-number against
itself, while the order, finding neither float below the other, falls back to the total order of
the words, which finds a word equal to itself. So not-a-number is `Equal` to itself in the weak
order and yet not weakly equal to itself (`weakCmp_nan_self`), and for doubles that is the only
failure (`Binary64.weakCmp_eq_iff_weakEq_iff`); the two symmetry laws hold for it all the same.

Absent values, pairs and lists keep consistency on the values whose parts are all in the set
(`WeakConsistent.option`, `.prod`, `.list`), and `WeakType` names every type built that way from
the scalars.

**Main statement.** `weak_comparisons_consistent`: for every type built from floats, integers,
booleans, characters, texts and timestamps with lawful orders, with absent values, pairs and
lists, every tolerance
and all values, weak equality is symmetric, the weak order reverses with its sides, and the weak
order is `Equal` exactly on weakly equal values whenever one side holds no float that is not a
number; between doubles it fails exactly on not-a-number against its own word.
-/

namespace LazySeq

/-- The laws of a weak order: weak equality is symmetric, the order reverses with its sides, and
on `ordinary` values the order is `Equal` exactly when they are weakly equal. -/
structure WeakConsistent (α : Type) [WeakOrd α] (ordinary : α → Prop) : Prop where
  weakEq_comm : ∀ (t : Tolerance) (a b : α), weakEq t a b = weakEq t b a
  weakCmp_swap : ∀ (t : Tolerance) (a b : α), weakCmp t b a = (weakCmp t a b).swap
  weakCmp_eq_iff : ∀ (t : Tolerance) (a b : α), ordinary a →
    (weakCmp t a b = .eq ↔ weakEq t a b = true)

/-- Moments order by day, then second, then nanosecond, each of which swaps with its sides. -/
theorem Moment.compare_swap (a b : Moment) : b.compare a = (a.compare b).swap := by
  have hday : Ord.compare b.day a.day = (Ord.compare a.day b.day).swap := Std.OrientedOrd.eq_swap
  have hsec : Ord.compare b.second a.second = (Ord.compare a.second b.second).swap :=
    Std.OrientedOrd.eq_swap
  have hnano : Ord.compare b.nano a.nano = (Ord.compare a.nano b.nano).swap :=
    Std.OrientedOrd.eq_swap
  simp only [Moment.compare, Ordering.swap_then, hday, hsec, hnano]

namespace WeakConsistent

variable {α β : Type}

/-- The order is `Equal` exactly on weakly equal values when the right side is ordinary too:
both the order and weak equality swap. -/
theorem weakCmp_eq_iff_of_right [WeakOrd α] {P : α → Prop} (h : WeakConsistent α P)
    (t : Tolerance) {a b : α} (hb : P b) : weakCmp t a b = .eq ↔ weakEq t a b = true := by
  rw [← Ordering.swap_eq_eq, ← h.weakCmp_swap, h.weakEq_comm]
  exact h.weakCmp_eq_iff t b a hb

/-! ## Exact orders -/

/-- An exact order is consistent on every value when it reverses with its sides and finds
`Equal` exactly on equal values. -/
theorem ofCompare [BEq α] [Ord α] (hswap : ∀ a b : α, compare b a = (compare a b).swap)
    (heq : ∀ a b : α, compare a b = .eq ↔ (a == b) = true) :
    @WeakConsistent α (exactWeakOrd α) fun _ => True := by
  let _ := exactWeakOrd α
  refine ⟨fun _ a b => ?_, fun _ a b => hswap a b, fun _ a b _ => heq a b⟩
  show (a == b) = (b == a)
  rw [Bool.eq_iff_iff, ← heq, ← heq, hswap a b, Ordering.swap_eq_eq]

/-- The exact order of a lawful linear order. -/
theorem ofLawful (α : Type) [BEq α] [LawfulBEq α] [Ord α] [Std.OrientedOrd α] [Std.LawfulEqOrd α] :
    @WeakConsistent α (exactWeakOrd α) fun _ => True :=
  ofCompare (fun _ _ => Std.OrientedOrd.eq_swap) fun _ _ => by
    rw [Std.compare_eq_iff_eq, beq_iff_eq]

/-- The exact order of a type whose order reverses with its sides and finds `Equal` exactly on
values its `==` finds equal, as an order of timestamps does even where it compares instants
written with different offsets. -/
theorem ofLawfulOrd (α : Type) [BEq α] [Ord α] [Std.OrientedOrd α] [Std.LawfulBEqOrd α] :
    @WeakConsistent α (exactWeakOrd α) fun _ => True :=
  ofCompare (fun _ _ => Std.OrientedOrd.eq_swap) fun _ _ => Std.compare_eq_iff_beq

/-! ## Float orders -/

/-- The weak order of a float type is `Equal` on weakly equal values, else the numeric order,
else the total order of the words. It is consistent on the values weakly equal to themselves
when weak equality is symmetric, `<` is asymmetric, and the total order swaps and finds only a
word equal to itself. -/
theorem ofFloatShape [WeakOrd α] (lt : α → α → Prop) [DecidableRel lt] (total : α → α → Ordering)
    {P : α → Prop}
    (hcmp : ∀ (t : Tolerance) (a b : α), weakCmp t a b =
      if weakEq t a b then .eq else if lt a b then .lt else if lt b a then .gt else total a b)
    (hcomm : ∀ (t : Tolerance) (a b : α), weakEq t a b = weakEq t b a) (hasymm : ∀ {a b}, lt a b → ¬lt b a)
    (hswap : ∀ a b, total b a = (total a b).swap) (htotal : ∀ {a b}, total a b = .eq → a = b)
    (hself : ∀ (t : Tolerance) {a}, P a → weakEq t a a = true) :
    WeakConsistent α P where
  weakEq_comm := hcomm
  weakCmp_swap t a b := by
    rw [hcmp t b a, hcmp t a b, hcomm t b a]
    by_cases hn : weakEq t a b = true
    · simp [hn]
    by_cases hab : lt a b
    · simp [hn, hab, hasymm hab]
    by_cases hba : lt b a
    · simp [hn, hab, hba]
    · simp only [if_neg hn, if_neg hab, if_neg hba]
      exact hswap a b
  weakCmp_eq_iff t a b ha := by
    rw [hcmp]
    constructor
    · intro h
      split_ifs at h with hn hab hba
      · exact hn
      -- neither weakly equal nor ordered: only the total order says `Equal`, for one word
      · cases htotal h
        exact absurd (hself t ha) hn
    · intro h
      rw [if_pos h]

/-- Doubles: consistent on every double that is a number. -/
theorem float64 : WeakConsistent Float fun a => a.isNaN = false :=
  ofFloatShape (· < ·) Binary64.totalCompare (fun _ _ _ => rfl)
    (fun t a b => by
      show (a == b || decide ((a - b).abs < t.epsilon)) =
        (b == a || decide ((b - a).abs < t.epsilon))
      rw [Binary64.beq_comm, Binary64.abs_sub_comm])
    Binary64.lt_asymm Binary64.totalCompare_swap Binary64.eq_of_totalCompare_eq
    fun _ a ha => by
      show (a == a || _) = true
      rw [Binary64.beq_self ha, Bool.true_or]

/-- Single-precision floats: consistent on every float that is a number. -/
theorem float32 : WeakConsistent Float32 fun a => a.isNaN = false :=
  ofFloatShape (· < ·) float32TotalCompare (fun _ _ _ => rfl)
    (fun t a b => by
      show (a == b || decide ((a - b).abs.toFloat < t.epsilon)) =
        (b == a || decide ((b - a).abs.toFloat < t.epsilon))
      rw [Binary64.beq_comm32, Binary64.abs_sub_comm32])
    Binary64.lt_asymm32 float32TotalCompare_swap eq_of_float32TotalCompare_eq
    fun _ a ha => by
      show (a == a || _) = true
      rw [Binary64.beq_self32 ha, Bool.true_or]

/-! ## Absent values, pairs and lists -/

/-- Absent values: absent is weakly equal only to absent and below every present value. -/
theorem option [WeakOrd α] {P : α → Prop} (h : WeakConsistent α P) :
    WeakConsistent (Option α) fun o => ∀ x, o = some x → P x where
  weakEq_comm t
    | none, none => rfl
    | none, some _ => rfl
    | some _, none => rfl
    | some x, some y => h.weakEq_comm t x y
  weakCmp_swap t
    | none, none => rfl
    | none, some _ => rfl
    | some _, none => rfl
    | some x, some y => h.weakCmp_swap t x y
  weakCmp_eq_iff t
    | none, none, _ => iff_of_true rfl rfl
    | none, some _, _ => iff_of_false Ordering.noConfusion Bool.noConfusion
    | some _, none, _ => iff_of_false Ordering.noConfusion Bool.noConfusion
    | some x, some y, hx => h.weakCmp_eq_iff t x y (hx x rfl)

/-- Pairs compare by their first parts, then by their second. -/
theorem prod [WeakOrd α] [WeakOrd β] {P : α → Prop} {Q : β → Prop} (ha : WeakConsistent α P)
    (hb : WeakConsistent β Q) : WeakConsistent (α × β) fun p => P p.1 ∧ Q p.2 where
  weakEq_comm t a b := by
    show (weakEq t a.1 b.1 && weakEq t a.2 b.2) = (weakEq t b.1 a.1 && weakEq t b.2 a.2)
    rw [ha.weakEq_comm t a.1 b.1, hb.weakEq_comm t a.2 b.2]
  weakCmp_swap t a b := by
    show (weakCmp t b.1 a.1).then (weakCmp t b.2 a.2) =
      ((weakCmp t a.1 b.1).then (weakCmp t a.2 b.2)).swap
    rw [ha.weakCmp_swap t a.1 b.1, hb.weakCmp_swap t a.2 b.2, Ordering.swap_then]
  weakCmp_eq_iff t a b hab := by
    show (weakCmp t a.1 b.1).then (weakCmp t a.2 b.2) = .eq ↔
      (weakEq t a.1 b.1 && weakEq t a.2 b.2) = true
    rw [Ordering.then_eq_eq, Bool.and_eq_true, ha.weakCmp_eq_iff t _ _ hab.1,
      hb.weakCmp_eq_iff t _ _ hab.2]

section List

variable [WeakOrd α] {P : α → Prop} (h : WeakConsistent α P) (t : Tolerance)
include h

theorem listWeakEq_comm : ∀ as bs : List α, listWeakEq t as bs = listWeakEq t bs as
  | [], [] => rfl
  | [], _ :: _ => rfl
  | _ :: _, [] => rfl
  | a :: as, b :: bs => by
    simp only [listWeakEq, h.weakEq_comm t a b, listWeakEq_comm as bs]

/-- Lists compare at their first weakly unequal elements, which swap; equal heads pass the
comparison on to the tails. -/
theorem listWeakCmp_swap : ∀ as bs : List α, listWeakCmp t bs as = (listWeakCmp t as bs).swap
  | [], [] => rfl
  | [], _ :: _ => rfl
  | _ :: _, [] => rfl
  | a :: as, b :: bs => by
    simp only [listWeakCmp]
    rw [h.weakCmp_swap t a b]
    cases weakCmp t a b with
    | eq => exact listWeakCmp_swap as bs
    | lt => rfl
    | gt => rfl

theorem listWeakCmp_eq_iff : ∀ as bs : List α, (∀ x ∈ as, P x) →
    (listWeakCmp t as bs = .eq ↔ listWeakEq t as bs = true)
  | [], [], _ => iff_of_true rfl rfl
  | [], _ :: _, _ => iff_of_false Ordering.noConfusion Bool.noConfusion
  | _ :: _, [], _ => iff_of_false Ordering.noConfusion Bool.noConfusion
  | a :: as, b :: bs, hP => by
    have ih := listWeakCmp_eq_iff as bs fun x hx => hP x (List.mem_cons_of_mem a hx)
    have hhead := h.weakCmp_eq_iff t a b (hP a List.mem_cons_self)
    simp only [listWeakCmp, listWeakEq, Bool.and_eq_true]
    rw [← hhead]
    cases weakCmp t a b with
    | eq => simpa using ih
    | lt => simp
    | gt => simp

end List

/-- Lists compare elementwise, then by length. -/
theorem list [WeakOrd α] {P : α → Prop} (h : WeakConsistent α P) :
    WeakConsistent (List α) fun l => ∀ x ∈ l, P x where
  weakEq_comm t := listWeakEq_comm h t
  weakCmp_swap t := listWeakCmp_swap h t
  weakCmp_eq_iff t := listWeakCmp_eq_iff h t

end WeakConsistent

/-! ## Where the law fails: not-a-number against itself -/

namespace Binary64

/-- Not-a-number is weakly equal to no double, at any tolerance. -/
theorem weakEq_of_isNaN (t : Tolerance) {a : Float} (b : Float) (h : a.isNaN = true) :
    weakEq t a b = false := by
  show (a == b || decide ((a - b).abs < t.epsilon)) = false
  rw [beq_of_isNaN b h, decide_eq_false (not_lt_of_isNaN_left _ (isNaN_abs_sub b h)),
    Bool.or_false]

/-- Not-a-number is `Equal` in the weak order to its own word and to nothing else: it is
neither below nor above anything, so the total order of the words decides. -/
theorem weakCmp_eq_of_isNaN (t : Tolerance) {a : Float} (b : Float) (h : a.isNaN = true) :
    weakCmp t a b = .eq ↔ a = b := by
  show (if weakEq t a b = true then .eq else if a < b then .lt else if b < a then .gt
    else totalCompare a b) = .eq ↔ a = b
  rw [weakEq_of_isNaN t b h, if_neg Bool.false_ne_true, if_neg (not_lt_of_isNaN_left b h),
    if_neg (not_lt_of_isNaN_right b h)]
  refine ⟨eq_of_totalCompare_eq, fun hab => ?_⟩
  subst hab
  exact totalCompare_self a

/-- The weak order of doubles is `Equal` exactly on weakly equal doubles, except on
not-a-number against its own word. -/
theorem weakCmp_eq_iff_weakEq_iff (t : Tolerance) (a b : Float) :
    (weakCmp t a b = .eq ↔ weakEq t a b = true) ↔ ¬(a.isNaN = true ∧ a = b) := by
  cases ha : a.isNaN with
  | false =>
    simp only [Bool.false_eq_true, false_and, not_false_eq_true, iff_true]
    exact WeakConsistent.float64.weakCmp_eq_iff t a b ha
  | true =>
    rw [weakCmp_eq_of_isNaN t b ha, weakEq_of_isNaN t b ha]
    simp

end Binary64

/-! ## Every type built from the weak scalars -/

/-- The types compared weakly: the scalars, and absent values, pairs and lists of them. The two
timestamp types, with and without a zone offset, are compared by their own exact orders. -/
inductive WeakType
  | f64 | f32 | i64 | u64 | int | bool | char | str | stamp | moment
  | option (a : WeakType)
  | pair (a b : WeakType)
  | list (a : WeakType)
deriving DecidableEq, Repr

namespace WeakType

section Carrier

/- The timestamps with a zone offset are `D`, those without one `N`: their orders come from
outside the library, and only their laws are assumed. -/
variable (D N : Type)

/-- The values of a weak type. -/
def carrier : WeakType → Type
  | f64 => Float
  | f32 => Float32
  | i64 => Int64
  | u64 => UInt64
  | int => Int
  | bool => Bool
  | char => Char
  | str => String
  | stamp => D
  | moment => N
  | option a => Option (a.carrier)
  | pair a b => a.carrier × b.carrier
  | list a => List a.carrier

variable [BEq D] [Ord D] [BEq N] [Ord N]

/-- The weak order a weak type's values are compared with. -/
@[reducible] def weakOrd : (c : WeakType) → WeakOrd (c.carrier D N)
  | f64 => inferInstanceAs (WeakOrd Float)
  | f32 => inferInstanceAs (WeakOrd Float32)
  | i64 => inferInstanceAs (WeakOrd Int64)
  | u64 => inferInstanceAs (WeakOrd UInt64)
  | int => inferInstanceAs (WeakOrd Int)
  | bool => inferInstanceAs (WeakOrd Bool)
  | char => inferInstanceAs (WeakOrd Char)
  | str => inferInstanceAs (WeakOrd String)
  | stamp => exactWeakOrd D
  | moment => exactWeakOrd N
  | option a => letI := a.weakOrd; inferInstanceAs (WeakOrd (Option (a.carrier D N)))
  | pair a b =>
    letI := a.weakOrd; letI := b.weakOrd
    inferInstanceAs (WeakOrd (a.carrier D N × b.carrier D N))
  | list a => letI := a.weakOrd; inferInstanceAs (WeakOrd (List (a.carrier D N)))

instance (c : WeakType) : WeakOrd (c.carrier D N) := c.weakOrd D N

/-- A value with no float in it that is not a number. -/
def Ordinary : (c : WeakType) → c.carrier D N → Prop
  | f64, x => Float.isNaN x = false
  | f32, x => Float32.isNaN x = false
  | option a, x => ∀ y, x = some y → a.Ordinary y
  | pair a b, x => a.Ordinary (Prod.fst x) ∧ b.Ordinary (Prod.snd x)
  | list a, x => ∀ y, List.Mem y x → a.Ordinary y
  | _, _ => True

variable [Std.OrientedOrd D] [Std.LawfulBEqOrd D] [Std.OrientedOrd N] [Std.LawfulBEqOrd N]

/-- Every weak type's order is consistent on its values with no float that is not a number. -/
theorem consistent : (c : WeakType) → WeakConsistent (c.carrier D N) (c.Ordinary D N)
  | f64 => WeakConsistent.float64
  | f32 => WeakConsistent.float32
  | i64 => WeakConsistent.ofLawful Int64
  | u64 => WeakConsistent.ofLawful UInt64
  | int => WeakConsistent.ofLawful Int
  | bool => WeakConsistent.ofLawful Bool
  | char => WeakConsistent.ofLawful Char
  | str => WeakConsistent.ofLawful String
  | stamp => WeakConsistent.ofLawfulOrd D
  | moment => WeakConsistent.ofLawfulOrd N
  | option a => (consistent a).option
  | pair a b => (consistent a).prod (consistent b)
  | list a => (consistent a).list

end Carrier

end WeakType

/-- **Weak comparisons are consistent, not-a-number against itself apart.** At every tolerance,
for every type built from doubles, single-precision floats, integers, booleans, characters, texts and
timestamps with absent values, pairs and lists, and all values `a` and `b`: weak
equality is symmetric, the weak order of `b` and `a` is that of `a` and `b` reversed, and when
either side holds no float that is not a number, the weak order is `Equal` exactly when the two
are weakly equal. For doubles this last law fails exactly on not-a-number against its own word,
which the weak order finds `Equal` and weak equality does not. The timestamp types `D` and `N` may
be any whose order reverses with its sides and finds `Equal` exactly where their `==` does. -/
theorem weak_comparisons_consistent (D N : Type) [BEq D] [Ord D] [Std.OrientedOrd D]
    [Std.LawfulBEqOrd D] [BEq N] [Ord N] [Std.OrientedOrd N] [Std.LawfulBEqOrd N]
    (t : Tolerance) :
    (∀ (c : WeakType) (a b : c.carrier D N),
      weakEq t a b = weakEq t b a ∧ weakCmp t b a = (weakCmp t a b).swap ∧
        (c.Ordinary D N a ∨ c.Ordinary D N b → (weakCmp t a b = .eq ↔ weakEq t a b = true))) ∧
    ∀ a b : Float,
      (weakCmp t a b = .eq ↔ weakEq t a b = true) ↔ ¬(a.isNaN = true ∧ a = b) := by
  refine ⟨fun c a b => ?_, Binary64.weakCmp_eq_iff_weakEq_iff t⟩
  have h := WeakType.consistent D N c
  refine ⟨h.weakEq_comm t a b, h.weakCmp_swap t a b, ?_⟩
  rintro (ha | hb)
  · exact h.weakCmp_eq_iff t a b ha
  · exact h.weakCmp_eq_iff_of_right t hb

/-- The calendar's moments order by day, then second, then nanosecond. -/
instance : Std.OrientedOrd Moment := ⟨fun {a b} => Moment.compare_swap b a⟩

instance : Std.LawfulBEqOrd Moment := ⟨fun {_ _} => beq_iff_eq.symm⟩

/-- Stamps order by their universal moments. -/
instance : Std.OrientedOrd Stamp := ⟨fun {a b} => Moment.compare_swap b.utc a.utc⟩

instance : Std.LawfulBEqOrd Stamp := ⟨fun {_ _} => beq_iff_eq.symm⟩

/-- Two lists of doubles at the standard tolerance, and not-a-number against itself, with the
calendar's stamps and moments as timestamps. -/
theorem weak_comparisons_consistent_lists :
    (WeakType.list .f64).Ordinary Stamp Moment ([1, 2] : List Float) ∧
      (weakCmp Tolerance.standard ([1, 2] : List Float) [1, 3] = .eq ↔
        weakEq Tolerance.standard ([1, 2] : List Float) [1, 3] = true) ∧
      ¬(weakCmp Tolerance.standard (0.0 / 0.0 : Float) (0.0 / 0.0) = .eq ↔
        weakEq Tolerance.standard (0.0 / 0.0 : Float) (0.0 / 0.0) = true) := by
  have hord : (WeakType.list .f64).Ordinary Stamp Moment ([1, 2] : List Float) := by
    show ∀ y ∈ ([1, 2] : List Float), y.isNaN = false
    decide
  have hnan : (0.0 / 0.0 : Float).isNaN = true ∧ (0.0 / 0.0 : Float) = 0.0 / 0.0 := ⟨rfl, rfl⟩
  have h := weak_comparisons_consistent Stamp Moment Tolerance.standard
  exact ⟨hord, (h.1 (.list .f64) ([1, 2] : List Float) ([1, 3] : List Float)).2.2 (.inl hord),
    fun hlaw => (h.2 _ _).1 hlaw hnan⟩

/-- Not-a-number is `Equal` to itself in the weak order of doubles, but not weakly equal to
itself. -/
theorem weakCmp_nan_self :
    weakCmp Tolerance.standard (0.0 / 0.0 : Float) (0.0 / 0.0) = .eq ∧
      weakEq Tolerance.standard (0.0 / 0.0 : Float) (0.0 / 0.0) = false :=
  ⟨rfl, rfl⟩

end LazySeq
