import LazySeq.Binary64.Basic

/-!
# Coefficient arithmetic

A sequence `a₀, a₁, a₂, …` stands for the power series `a₀ + a₁x + a₂x² + …`. The series
operations only add, subtract, multiply, divide and negate coefficients, so they are written for
any type with that arithmetic (`Coefficient`): doubles to run, exact numbers to reason about.

Doubles differ from exact numbers in two places that answers show: a running sum starts from
negative zero (so a sum of negative zeros stays negative), and Horner's rule uses the fused
multiply-add. Both are fields of the class.

`convolveAt l r n` is the `n`-th coefficient of the product of the known coefficients:
the sum of `l[i] · r[n - i]` over the `i` where both exist, or zero when there is none.
-/

namespace LazySeq

/-- The arithmetic the series operations use. -/
class Coefficient (α : Type) extends Add α, Sub α, Mul α, Div α, Neg α where
  /-- A coefficient that is not there. -/
  zero : α
  /-- The unit. -/
  one : α
  /-- Where a running sum starts. -/
  sumStart : α
  /-- An index as a coefficient. -/
  ofIndex : Nat → α
  /-- `a · b + c`, rounded once for doubles. -/
  mulAdd : α → α → α → α

instance : Coefficient Float where
  zero := 0.0
  one := 1.0
  sumStart := -0.0
  ofIndex n := Float.ofNat n
  mulAdd := Binary64.fusedMulAdd

namespace Coefficient

variable {α : Type} [Coefficient α]

/-- The sum of a list, from left to right. -/
def sum (xs : List α) : α := xs.foldl (· + ·) sumStart

/-- The `n`-th coefficient of the product of two lists of known coefficients. -/
def convolveAt (left right : Array α) (n : Nat) : α :=
  let start := n + 1 - right.size
  let stop := min n (left.size - 1)
  if left.size = 0 ∨ start > stop then zero
  else sum ((List.range' start (stop + 1 - start)).map fun i =>
    left.getD i zero * right.getD (n - i) zero)

/-- The value of the polynomial with these coefficients at `x`, by Horner's rule. -/
def horner (coefficients : List α) (x : α) : α :=
  coefficients.foldr (fun c acc => mulAdd acc x c) zero

end Coefficient

end LazySeq
