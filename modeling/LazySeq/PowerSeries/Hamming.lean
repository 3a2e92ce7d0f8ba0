import LazySeq.Error
import LazySeq.Stream.Feed

/-!
# Products of powers of moduli

`hamming ms` enumerates `{ ∏ m^eₘ }` over the distinct moduli `ms` (all at least 2) in
increasing order, starting with 1. It keeps the generated values from the lowest cursor on; each
modulus has a cursor at the value it multiplies next. Each step takes the least candidate
`m · value[cursor]` (products saturate at the largest unsigned 64-bit word), advances every
cursor that produced it, and forgets the values no cursor can reach any more.
-/

namespace LazySeq

/-- The largest unsigned 64-bit value, where products saturate. -/
def wordLimit : Nat := Nat.pow 2 64 - 1

/-- The generator state: sorted distinct moduli, one cursor each, the kept values and the index
of the first kept value. -/
structure Hamming where
  moduli : List Nat
  cursors : List Nat
  history : List Nat
  offset : Nat
deriving Repr

namespace Hamming

/-- A generator for the given moduli; refused when there is none or one is below 2. -/
def make (moduli : List Nat) : Except SeqError Hamming :=
  if moduli.isEmpty then .error (.invalidArgument "hamming needs at least one modulus")
  else
    match moduli.find? (· < 2) with
    | some bad => .error (.invalidArgument ("hamming moduli must be at least 2, got " ++ toString bad))
    | none =>
      let sorted := (moduli.mergeSort (· ≤ ·)).eraseDups
      .ok ⟨sorted, sorted.map fun _ => 0, [1], 0⟩

/-- The next value, and the generator after it. -/
def next (h : Hamming) : Option (Nat × Hamming) :=
  match h.history.getLast? with
  | none => none
  | some current =>
    let candidates := (h.moduli.zip h.cursors).map fun (m, c) =>
      min wordLimit (m * h.history.getD (c - h.offset) 0)
    let least := candidates.foldl min wordLimit
    let cursors := (h.cursors.zip candidates).map fun (c, x) => if x = least then c + 1 else c
    let history := h.history ++ [least]
    let lowest := cursors.foldl min (cursors.headD h.offset)
    let dropped := lowest - h.offset
    some (current, { h with cursors, history := history.drop dropped, offset := h.offset + dropped })

/-- The generator as an input of its own: it never ends. -/
def feed : Feed Hamming Nat where
  hasNext h := (.ok true, h)
  tryNext h :=
    match h.next with
    | some (v, h) => (.ok v, h)
    | none => (Outcome.exhausted, h)

end Hamming

end LazySeq
