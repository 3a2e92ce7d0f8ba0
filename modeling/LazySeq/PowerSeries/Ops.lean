import LazySeq.PowerSeries.Coefficient
import LazySeq.Stream.Feed

/-!
# Lazy operations on power series

Each operation is an adapter over coefficient inputs: the `n`-th output reads at most the first
`n + 1` coefficients of each input, so operations compose over infinite series. A finite input's
missing coefficients count as zero. When an input fails, what was already read is kept and the
next call resumes there.

* `SeriesSum`: `a + factor · b` coefficient by coefficient, as long as either input goes on. A
  left coefficient read before the right input failed is held for the next call; an abort of the
  right input loses it.
* `Product`: the Cauchy product. It goes on while either input does, and then until the last
  coefficient of the product of the two polynomials read.
* `Reciprocal`: `1 / a` for a series with a usable leading coefficient; it never ends.
* `Composition`: `a(b(x))` for an inner series without constant term, keeping the powers of the
  inner series computed so far. It ends after the degree of the composed polynomials.
* `Derivative` and `Integral`: the formal derivative (the constant term is skipped) and the
  integral with constant zero.
-/

namespace LazySeq

variable {σ α : Type} [Coefficient α]

open Coefficient

/-- What a sum holds between calls. -/
structure SeriesSum (α : Type) where
  factor : α
  held : Option α

namespace SeriesSum

/-- A left coefficient is held, or either input goes on. -/
def hasNext (left right : Feed σ α) (st : SeriesSum α) (s : σ) : Outcome Bool × σ :=
  if st.held.isSome then (.ok true, s)
  else
    match left.hasNext s with
    | (.ok false, s) => right.hasNext s
    | other => other

/-- The next coefficient of `left + factor · right`. -/
def tryNext (left right : Feed σ α) (st : SeriesSum α) (s : σ) :
    Outcome α × SeriesSum α × σ :=
  match hasNext left right st s with
  | (.error h, s) => (.error h, st, s)
  | (.ok false, s) => (Outcome.exhausted, st, s)
  | (.ok true, s) =>
    let first : Outcome α × σ := match st.held with
      | some a => (.ok a, s)
      | none => match left.pull s with
        | (.ok a, s) => (.ok (a.getD zero), s)
        | (.error h, s) => (.error h, s)
    match first with
    | (.error h, s) => (.error h, { st with held := none }, s)
    | (.ok a, s) =>
      match right.pull s with
      | (.error (.fail e), s) => (.error (.fail e), { st with held := some a }, s)
      | (.error (.abort r), s) => (.error (.abort r), { st with held := none }, s)
      | (.ok b, s) => (.ok (a + st.factor * b.getD zero), { st with held := none }, s)

/-- The sum as an input of its own. -/
def feed (left right : Feed σ α) : Feed (SeriesSum α × σ) α where
  hasNext := fun (st, s) => let (r, s) := hasNext left right st s; (r, (st, s))
  tryNext := fun (st, s) => let (r, st, s) := tryNext left right st s; (r, (st, s))

end SeriesSum

/-- What a product holds between calls. -/
structure Product (α : Type) where
  leftCoeffs : Array α
  rightCoeffs : Array α
  index : Nat

namespace Product

/-- A product that has read nothing. -/
def initial : Product α := ⟨#[], #[], 0⟩

/-- Either input goes on, or the product of what was read has coefficients left. -/
def hasNext (left right : Feed σ α) (st : Product α) (s : σ) : Outcome Bool × σ :=
  match left.hasNext s with
  | (.ok false, s) =>
    match right.hasNext s with
    | (.ok false, s) => (.ok (st.index + 1 < st.leftCoeffs.size + st.rightCoeffs.size), s)
    | other => other
  | other => other

/-- Reads coefficient `index` of an input into `known` when it is not known yet. -/
def readAt (input : Feed σ α) (index : Nat) (known : Array α) (s : σ) :
    Outcome (Array α) × σ :=
  if known.size ≤ index then
    match input.pull s with
    | (.ok (some a), s) => (.ok (known.push a), s)
    | (.ok none, s) => (.ok known, s)
    | (.error h, s) => (.error h, s)
  else (.ok known, s)

/-- The next coefficient of the product. -/
def tryNext (left right : Feed σ α) (st : Product α) (s : σ) : Outcome α × Product α × σ :=
  match hasNext left right st s with
  | (.error h, s) => (.error h, st, s)
  | (.ok false, s) => (Outcome.exhausted, st, s)
  | (.ok true, s) =>
    match readAt left st.index st.leftCoeffs s with
    | (.error h, s) => (.error h, st, s)
    | (.ok leftCoeffs, s) =>
      let st := { st with leftCoeffs }
      match readAt right st.index st.rightCoeffs s with
      | (.error h, s) => (.error h, st, s)
      | (.ok rightCoeffs, s) =>
        let c := convolveAt st.leftCoeffs rightCoeffs st.index
        (.ok c, { st with rightCoeffs, index := st.index + 1 }, s)

/-- The product as an input of its own. -/
def feed (left right : Feed σ α) : Feed (Product α × σ) α where
  hasNext := fun (st, s) => let (r, s) := hasNext left right st s; (r, (st, s))
  tryNext := fun (st, s) => let (r, st, s) := tryNext left right st s; (r, (st, s))

end Product

/-- What a reciprocal holds: the coefficients read (the first is the leading one) and the
results so far. -/
structure Reciprocal (α : Type) where
  coeffs : Array α
  result : Array α

namespace Reciprocal

/-- The reciprocal of a series with leading coefficient `leading`. -/
def start (leading : α) : Reciprocal α := ⟨#[leading], #[]⟩

/-- The next coefficient `r_n`: `1 / a₀` first, then `-(Σ_{i=1..n} a_i r_{n-i}) / a₀` over the
known `a_i`. -/
def tryNext (input : Feed σ α) (st : Reciprocal α) (s : σ) : Outcome α × Reciprocal α × σ :=
  let n := st.result.size
  let leading := st.coeffs.getD 0 zero
  if n = 0 then
    let c := one / leading
    (.ok c, { st with result := st.result.push c }, s)
  else
    match Product.readAt input n st.coeffs s with
    | (.error h, s) => (.error h, st, s)
    | (.ok coeffs, s) =>
      let terms := (List.range' 1 n).filterMap fun i =>
        coeffs[i]?.map fun a => a * st.result.getD (n - i) zero
      let c := -(sum terms) / leading
      (.ok c, { coeffs, result := st.result.push c }, s)

/-- The reciprocal as an input of its own: it never ends. -/
def feed (input : Feed σ α) : Feed (Reciprocal α × σ) α where
  hasNext := fun (st, s) => (.ok true, (st, s))
  tryNext := fun (st, s) => let (r, st, s) := tryNext input st s; (r, (st, s))

end Reciprocal

/-- What a composition holds between calls. -/
structure Composition (α : Type) where
  outerCoeffs : Array α
  innerCoeffs : Array α
  powers : Array (Array α)
  index : Nat

namespace Composition

/-- A composition that has read nothing; the inner constant term counts as zero. -/
def initial : Composition α := ⟨#[], #[zero], #[], 0⟩

/-- The degree of the composition of the polynomials read so far. -/
def degree (st : Composition α) : Nat := (st.outerCoeffs.size - 1) * (st.innerCoeffs.size - 1)

/-- Extends every known power of the inner series by its coefficient `n`, and adds the `n`-th
power when `n ≥ 1`. -/
def extendPowers (st : Composition α) (n : Nat) : Composition α :=
  let powers := if st.powers.isEmpty then #[#[]] else st.powers
  let powers := powers.modify 0 (·.push (if n = 0 then one else zero))
  let powers := (List.range' 1 (powers.size - 1)).foldl (fun ps k =>
    ps.modify k (·.push (convolveAt st.innerCoeffs (ps.getD (k - 1) #[]) n))) powers
  let powers :=
    if n ≥ 1 then
      let previous := powers.getD (n - 1) #[]
      powers.push ((List.range (n + 1)).map (convolveAt st.innerCoeffs previous)).toArray
    else powers
  { st with powers }

/-- Either input goes on, or the composed polynomial has coefficients left. -/
def hasNext (outer inner : Feed σ α) (st : Composition α) (s : σ) : Outcome Bool × σ :=
  match outer.hasNext s with
  | (.ok false, s) =>
    match inner.hasNext s with
    | (.ok false, s) => (.ok (st.index ≤ st.degree), s)
    | other => other
  | other => other

/-- The next coefficient `Σ_k a_k · [xⁿ] bᵏ` over the outer coefficients read. -/
def tryNext (outer inner : Feed σ α) (st : Composition α) (s : σ) :
    Outcome α × Composition α × σ :=
  match hasNext outer inner st s with
  | (.error h, s) => (.error h, st, s)
  | (.ok false, s) => (Outcome.exhausted, st, s)
  | (.ok true, s) =>
    let n := st.index
    match Product.readAt inner n st.innerCoeffs s with
    | (.error h, s) => (.error h, st, s)
    | (.ok innerCoeffs, s) =>
      let st := { st with innerCoeffs }
      match Product.readAt outer n st.outerCoeffs s with
      | (.error h, s) => (.error h, st, s)
      | (.ok outerCoeffs, s) =>
        let st := extendPowers { st with outerCoeffs } n
        let terms := (st.outerCoeffs.toList.zip st.powers.toList).map fun (a, p) =>
          a * p.getD n zero
        (.ok (sum terms), { st with index := n + 1 }, s)

/-- The composition as an input of its own. -/
def feed (outer inner : Feed σ α) : Feed (Composition α × σ) α where
  hasNext := fun (st, s) => let (r, s) := hasNext outer inner st s; (r, (st, s))
  tryNext := fun (st, s) => let (r, st, s) := tryNext outer inner st s; (r, (st, s))

end Composition

namespace Derivative

/-- Skips the constant term on the first call. -/
def skipConstant (input : Feed σ α) (index : Nat) (s : σ) : Outcome Unit × Nat × σ :=
  if index = 0 then
    match input.pull s with
    | (.error h, s) => (.error h, 0, s)
    | (.ok _, s) => (.ok (), 1, s)
  else (.ok (), index, s)

/-- A failed skip is reported by `tryNext`, so it counts as a next element. -/
def hasNext (input : Feed σ α) (index : Nat) (s : σ) : Outcome Bool × Nat × σ :=
  match skipConstant input index s with
  | (.error (.fail _), index, s) => (.ok true, index, s)
  | (.error (.abort r), index, s) => (.error (.abort r), index, s)
  | (.ok (), index, s) => let (r, s) := input.hasNext s; (r, index, s)

/-- The next coefficient `n · a_n`. -/
def tryNext (input : Feed σ α) (index : Nat) (s : σ) : Outcome α × Nat × σ :=
  match skipConstant input index s with
  | (.error h, index, s) => (.error h, index, s)
  | (.ok (), index, s) =>
    match input.tryNext s with
    | (.error h, s) => (.error h, index, s)
    | (.ok a, s) => (.ok (a * ofIndex index), index + 1, s)

/-- The derivative as an input of its own: its state is the index of the next coefficient. -/
def feed (input : Feed σ α) : Feed (Nat × σ) α where
  hasNext := fun (index, s) => let (r, index, s) := hasNext input index s; (r, (index, s))
  tryNext := fun (index, s) => let (r, index, s) := tryNext input index s; (r, (index, s))

end Derivative

namespace Integral

/-- The constant term is always there. -/
def hasNext (input : Feed σ α) (index : Nat) (s : σ) : Outcome Bool × σ :=
  if index = 0 then (.ok true, s) else input.hasNext s

/-- Zero first, then `a_{n-1} / n`. -/
def tryNext (input : Feed σ α) (index : Nat) (s : σ) : Outcome α × Nat × σ :=
  if index = 0 then (.ok zero, 1, s)
  else
    match input.tryNext s with
    | (.error h, s) => (.error h, index, s)
    | (.ok a, s) => (.ok (a / ofIndex index), index + 1, s)

/-- The integral as an input of its own: its state is the index of the next coefficient. -/
def feed (input : Feed σ α) : Feed (Nat × σ) α where
  hasNext := fun (index, s) => let (r, s) := hasNext input index s; (r, (index, s))
  tryNext := fun (index, s) => let (r, index, s) := tryNext input index s; (r, (index, s))

end Integral

end LazySeq
