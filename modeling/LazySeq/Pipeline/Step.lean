import LazySeq.Pipeline.Seq

/-!
# Running pipelines

`Stepper.nested loop d` answers the two calls of every sequence, `hasNext` and `tryNext`, for pipelines
nested at most `d` deep (counted through the hubs). A node's calls are those of its adapter,
with each input seen as a `Feed` whose calls are the stepper one level down; a fork steps the
upstream of its hub, taken out of the world while it runs. Below depth zero every call runs out
of budget, which `World.depthBudget` rules out.

`loop` bounds the reads of one call of a node that reads ahead until it finds an element (a
filter, a run, a bucket). It only stands in for a loop that would never end.
-/

namespace LazySeq

/-- The two calls of a sequence, on a pipeline and its world. -/
structure Stepper where
  hasNext : Seq → World → Outcome Bool × Seq × World
  tryNext : Seq → World → Outcome Value × Seq × World

namespace Stepper

/-- A pipeline as an adapter input. -/
def feed (k : Stepper) : Feed (Seq × World) Value where
  hasNext := fun (s, w) => let (r, s, w) := k.hasNext s w; (r, (s, w))
  tryNext := fun (s, w) => let (r, s, w) := k.tryNext s w; (r, (s, w))

/-- Input `i` of a node with a list of inputs. -/
def feedAt (k : Stepper) (i : Nat) : Feed (Array Seq × World) Value :=
  k.feed.focus (fun (ss, w) => (ss.getD i Seq.empty, w)) (fun (ss, _) (s, w) => (ss.set! i s, w))

/-- The inputs of a node with `n` inputs. -/
def feeds (k : Stepper) (n : Nat) : List (Feed (Array Seq × World) Value) :=
  (List.range n).map k.feedAt

/-- The left input of a node with two. -/
def left (k : Stepper) : Feed (Seq × Seq × World) Value :=
  k.feed.focus (fun (a, _, w) => (a, w)) (fun (_, b, _) (a, w) => (a, b, w))

/-- The right input of a node with two. -/
def right (k : Stepper) : Feed (Seq × Seq × World) Value :=
  k.feed.focus (fun (_, b, w) => (b, w)) (fun (a, _, _) (b, w) => (a, b, w))

end Stepper

/-- Samples read as a key of kind `key` and a double. -/
def sampleOf (key : ScalarKind) (v : Value) : Scalar × Float :=
  let (a, b) := v.halves
  (key.read a, b.toF64)

/-- Samples of input `i` read as a tagged key of kind `key` and a value. -/
def taggedOf (key : ScalarKind) (i : Nat) (v : Value) : Nat × Scalar × Value :=
  let (a, b) := v.halves
  (i, key.read a, b)

/-- The selector of a sample merge: the least key, incomparable keys counting as equal. -/
def leastKey : Unit → List (Option (Nat × Scalar × Value)) → Option Nat × Unit :=
  fun _ heads => (selectMinBy (fun a b => compareLoose a.2.1 b.2.1) heads, ())

/-- A segment as a value: its start, intercept, slope and sample count. -/
def segmentValue (g : Segment Scalar Float) : Value :=
  .list [g.start.toValue, .float g.intercept, .float g.slope, .int g.len.toInt64]

/-- The merged tagged samples of a sample merge. -/
def mergedSamples (k : Stepper) (key : ScalarKind) (n : Nat) :
    Feed (MergeState (Nat × Scalar × Value) Unit × Array Seq × World) (Nat × Scalar × Value) :=
  Merge.feed leastKey true ((List.range n).map fun i => (k.feedAt i).map (taggedOf key i))

/-- Notes a value handed out in the log of a `peek` node. -/
def logged (log : String) (p : Seq × World) (v : Value) : Seq × World := (p.1, p.2.record log v)

/-- Runs a hub's upstream for fork `i`: the upstream is taken out of the world while it runs. -/
def withHub (h : Nat) (w : World)
    (run : Hub → Seq × World → α × Queues Value × Seq × World) : Option (α × World) :=
  match w.hubs[h]? with
  | none => none
  | some hub =>
    let (a, queues, upstream, w) := run hub (hub.upstream, { w with hubs := w.hubs.set! h default })
    some (a, { w with hubs := w.hubs.set! h ⟨upstream, queues⟩ })

/-- `hasNext` of one node, its inputs stepped by `k`. -/
def nodeHasNext (k : Stepper) (loop : Nat) : Seq → World → Outcome Bool × Seq × World
  | .items rest, w => (.ok !rest.isEmpty, .items rest, w)
  | .repeat v n, w => (.ok (n != some 0), .repeat v n, w)
  | .cycle vs p, w => (.ok !vs.isEmpty, .cycle vs p, w)
  | .concat parts, w =>
    let (r, parts, w) := Concat.hasNext k.feed World.drop parts w
    (r, .concat parts, w)
  | .filter p ahead input, w =>
    let (r, ahead, input, w) := Filter.hasNext p.holds k.feed loop ahead (input, w)
    (r, .filter p ahead input, w)
  | .map f input, w => let (r, input, w) := k.hasNext input w; (r, .map f input, w)
  | .map2 f a b, w => let (r, a, b, w) := Map2.hasNext k.left k.right (a, b, w); (r, .map2 f a b, w)
  | .peek log input, w =>
    let (r, input, w) := (k.feed.tap (logged log)).hasNext (input, w)
    (r, .peek log input, w)
  | .limit n input, w => let (r, input, w) := Limit.hasNext k.feed n (input, w); (r, .limit n input, w)
  | .zip weak row inputs, w =>
    let (r, arr, w) := Zip.hasNext weak (k.feeds inputs.length) row (inputs.toArray, w)
    (r, .zip weak row arr.toList, w)
  | .merge weak st inputs, w =>
    let (r, st, arr, w) := Merge.hasNext weak (k.feeds inputs.length) st (inputs.toArray, w)
    (r, .merge weak st arr.toList, w)
  | .groupBy key t run input, w =>
    let (r, input, w) := GroupBy.hasNext k.feed run (input, w)
    (r, .groupBy key t run input, w)
  | .keepFirst key t st input, w =>
    let (r, st, input, w) := KeepFirst.hasNext (key.same t) k.feed loop st (input, w)
    (r, .keepFirst key t st input, w)
  | .keepLast key t pending input, w =>
    let (r, input, w) := KeepLast.hasNext k.feed pending (input, w)
    (r, .keepLast key t pending input, w)
  | .fork h i, w =>
    match withHub h w fun hub s =>
        let (r, upstream, w) := Queues.hasNext k.feed hub.queues i s
        (r, hub.queues, upstream, w) with
    | some (r, w) => (r, .fork h i, w)
    | none => (.ok false, .fork h i, w)
  | .sum st a b, w =>
    let (r, a, b, w) := SeriesSum.hasNext (k.left.map Value.toF64) (k.right.map Value.toF64) st (a, b, w)
    (r, .sum st a b, w)
  | .product st a b, w =>
    let (r, a, b, w) := Product.hasNext (k.left.map Value.toF64) (k.right.map Value.toF64) st (a, b, w)
    (r, .product st a b, w)
  | .composition st a b, w =>
    let (r, a, b, w) :=
      Composition.hasNext (k.left.map Value.toF64) (k.right.map Value.toF64) st (a, b, w)
    (r, .composition st a b, w)
  | .derivative index input, w =>
    let (r, index, input, w) := Derivative.hasNext (k.feed.map Value.toF64) index (input, w)
    (r, .derivative index input, w)
  | .integral index input, w =>
    let (r, input, w) := Integral.hasNext (k.feed.map Value.toF64) index (input, w)
    (r, .integral index input, w)
  | .compact key agg st a b, w =>
    let (r, st, a, b, w) :=
      Compact.hasNext agg.apply (k.left.map (sampleOf key)) (k.right.map key.read) loop st (a, b, w)
    (r, .compact key agg st a b, w)
  | .sampleMerge key t merged st inputs, w =>
    let (r, merged, arr, w) :=
      SampleMerge.hasNext (mergedSamples k key inputs.length) st (merged, inputs.toArray, w)
    (r, .sampleMerge key t merged st arr.toList, w)
  | .linearize key eps st input, w =>
    let (r, st, input, w) := Linearize.hasNext eps (k.feed.map (sampleOf key)) loop st (input, w)
    (r, .linearize key eps st input, w)
  | s, w => (.ok true, s, w)

/-- `tryNext` of one node, its inputs stepped by `k`. -/
def nodeTryNext (k : Stepper) (loop : Nat) : Seq → World → Outcome Value × Seq × World
  | .items rest, w =>
    match rest with
    | v :: rest => (.ok v, .items rest, w)
    | [] => (Outcome.exhausted, .items [], w)
  | .repeat v n, w =>
    match n with
    | some 0 => (Outcome.exhausted, .repeat v n, w)
    | some (n + 1) => (.ok v, .repeat v (some n), w)
    | none => (.ok v, .repeat v none, w)
  | .cycle vs p, w =>
    match vs[p]? with
    | some v => (.ok v, .cycle vs ((p + 1) % vs.length), w)
    | none => (Outcome.exhausted, .cycle vs p, w)
  | .unary state f, w =>
    match f.apply state with
    | .ok (next, f) => (.ok state, .unary next f, w)
    | .error r => (.error (.abort r), .unary state f, w)
  | .binary a b f, w => (.ok a, .binary b (f.apply a b) f, w)
  | .generate next step, w => (.ok next, .generate (Value.arith .add next step) step, w)
  | .concat parts, w =>
    let (r, parts, w) := Concat.tryNext k.feed World.drop parts w
    (r, .concat parts, w)
  | .hamming h, w =>
    let (r, h) := Hamming.feed.tryNext h
    (r.map fun v => if v < Nat.pow 2 63 then .int v.toInt64 else .uint v.toUInt64, .hamming h, w)
  | .factorial n f inverted, w =>
    (.ok (.float (if inverted then 1 / f else f)), .factorial (n + 1) (f * (n + 1)) inverted, w)
  | .filter p ahead input, w =>
    let (r, ahead, input, w) := Filter.tryNext p.holds k.feed loop ahead (input, w)
    (r, .filter p ahead input, w)
  | .map f input, w =>
    match k.tryNext input w with
    | (.ok v, input, w) =>
      match f.apply v with
      | .ok (v, f) => (.ok v, .map f input, w)
      | .error r => (.error (.abort r), .map f input, w)
    | (.error h, input, w) => (.error h, .map f input, w)
  | .map2 f a b, w =>
    let (r, a, b, w) := Map2.tryNext f.apply k.left k.right (a, b, w)
    (r, .map2 f a b, w)
  | .peek log input, w =>
    let (r, input, w) := (k.feed.tap (logged log)).tryNext (input, w)
    (r, .peek log input, w)
  | .limit n input, w =>
    let (r, n, input, w) := Limit.tryNext k.feed n (input, w)
    (r, .limit n input, w)
  | .zip weak row inputs, w =>
    let (r, row, arr, w) := Zip.tryNext weak (k.feeds inputs.length) row (inputs.toArray, w)
    (r.map fun cells => .list (cells.map optionValue), .zip weak row arr.toList, w)
  | .merge weak st inputs, w =>
    let (r, st, arr, w) :=
      Merge.tryNext Selector.pick weak (k.feeds inputs.length) st (inputs.toArray, w)
    (r, .merge weak st arr.toList, w)
  | .groupBy key t run input, w =>
    let (r, run, input, w) := GroupBy.tryNext (key.same t) k.feed loop run (input, w)
    (r.map Value.list, .groupBy key t run input, w)
  | .keepFirst key t st input, w =>
    let (r, st, input, w) := KeepFirst.tryNext (key.same t) k.feed loop st (input, w)
    (r, .keepFirst key t st input, w)
  | .keepLast key t pending input, w =>
    let (r, pending, input, w) := KeepLast.tryNext (key.same t) k.feed loop pending (input, w)
    (r, .keepLast key t pending input, w)
  | .fork h i, w =>
    match withHub h w fun hub s =>
        let (r, queues, upstream, w) := Queues.tryNext k.feed hub.queues i s
        (r, queues, upstream, w) with
    | some (r, w) => (r, .fork h i, w)
    | none => (Outcome.exhausted, .fork h i, w)
  | .sum st a b, w =>
    let (r, st, a, b, w) :=
      SeriesSum.tryNext (k.left.map Value.toF64) (k.right.map Value.toF64) st (a, b, w)
    (r.map Value.float, .sum st a b, w)
  | .product st a b, w =>
    let (r, st, a, b, w) :=
      Product.tryNext (k.left.map Value.toF64) (k.right.map Value.toF64) st (a, b, w)
    (r.map Value.float, .product st a b, w)
  | .reciprocal st input, w =>
    let (r, st, input, w) := Reciprocal.tryNext (k.feed.map Value.toF64) st (input, w)
    (r.map Value.float, .reciprocal st input, w)
  | .composition st a b, w =>
    let (r, st, a, b, w) :=
      Composition.tryNext (k.left.map Value.toF64) (k.right.map Value.toF64) st (a, b, w)
    (r.map Value.float, .composition st a b, w)
  | .derivative index input, w =>
    let (r, index, input, w) := Derivative.tryNext (k.feed.map Value.toF64) index (input, w)
    (r.map Value.float, .derivative index input, w)
  | .integral index input, w =>
    let (r, index, input, w) := Integral.tryNext (k.feed.map Value.toF64) index (input, w)
    (r.map Value.float, .integral index input, w)
  | .compact key agg st a b, w =>
    let (r, st, a, b, w) :=
      Compact.tryNext agg.apply (k.left.map (sampleOf key)) (k.right.map key.read) loop st (a, b, w)
    (r.map fun (s, x) => .list [s.toValue, .float x], .compact key agg st a b, w)
  | .sampleMerge key t merged st inputs, w =>
    let (r, st, merged, arr, w) :=
      SampleMerge.tryNext t (mergedSamples k key inputs.length) loop st (merged, inputs.toArray, w)
    (r.map fun (s, vs) => .list [s.toValue, .list (vs.map optionValue)],
      .sampleMerge key t merged st arr.toList, w)
  | .linearize key eps st input, w =>
    let (r, st, input, w) := Linearize.tryNext eps (k.feed.map (sampleOf key)) loop st (input, w)
    (r.map segmentValue, .linearize key eps st input, w)

namespace Stepper

/-- The calls for pipelines nested at most `depth` deep. -/
def nested (loop : Nat) : Nat → Stepper
  | 0 => ⟨fun s w => (.error .outOfBudget, s, w), fun s w => (.error .outOfBudget, s, w)⟩
  | depth + 1 =>
    let k := Stepper.nested loop depth
    ⟨nodeHasNext k loop, nodeTryNext k loop⟩

end Stepper

/-- The bound on the reads of one call of a node. -/
def loopBudget : Nat := Nat.pow 2 32

/-- The calls for pipelines of a world. -/
def World.stepper (w : World) (s : Seq) : Stepper := Stepper.nested loopBudget (w.depthBudget s)

/-- `hasNext` of a pipeline. -/
def Seq.hasNext (s : Seq) (w : World) : Outcome Bool × Seq × World := (w.stepper s).hasNext s w

/-- `tryNext` of a pipeline. -/
def Seq.tryNext (s : Seq) (w : World) : Outcome Value × Seq × World := (w.stepper s).tryNext s w

/-- A pipeline of a world as an input. -/
def Seq.feed (s : Seq) (w : World) : Feed (Seq × World) Value := (w.stepper s).feed

end LazySeq
