import LazySeq.Pipeline.Callbacks
import LazySeq.Stream.Hub
import LazySeq.Stream.Group
import LazySeq.PowerSeries.Ops
import LazySeq.PowerSeries.Hamming
import LazySeq.Series.Samples

/-!
# Pipelines as data

A pipeline is a tree of sequence nodes, each holding its own state: sources at the leaves,
adapters above them. A `fork` leaf is one output of a *hub*: hubs live in the `World` next to the
pipelines, each with the upstream pipeline it shares and one queue per fork. The world also holds
the logs that `peek` nodes append to.

No pipeline reaches itself through the hubs: a hub's upstream is built before its forks exist.
So the nesting of nodes, counted through the hubs, is bounded by `World.depthBudget`, and the
evaluator recurses on that bound.
-/

namespace LazySeq

/-- A sequence node and its state. -/
inductive Seq where
  /-- The values still to come. -/
  | items (rest : List Value)
  /-- A value, forever or a number of times. -/
  | repeat (value : Value) (remaining : Option Nat)
  /-- Values in a cycle, from a position. -/
  | cycle (values : List Value) (position : Nat)
  /-- A state, then `f` of it, and so on. -/
  | unary (state : Value) (f : Fn1)
  /-- Two states sliding under `f`: `a`, `b`, `f a b`, … -/
  | binary (a b : Value) (f : Fn2)
  /-- `next`, `next + step`, … -/
  | generate (next step : Value)
  /-- The parts one after another; exhausted parts are dropped. -/
  | concat (parts : List Seq)
  /-- Products of powers of moduli. -/
  | hamming (h : Hamming)
  /-- The factorials (or their reciprocals) from `f = n!`. -/
  | factorial (n f : Float) (inverted : Bool)
  | filter (p : Pred) (ahead : Lookahead Value) (input : Seq)
  | map (f : Fn1) (input : Seq)
  | map2 (f : Fn2) (left right : Seq)
  /-- Appends every element handed out to the named log. -/
  | peek (log : String) (input : Seq)
  | limit (remaining : Nat) (input : Seq)
  | zip (weak : Bool) (row : Array (Option Value)) (inputs : List Seq)
  | merge (weak : Bool) (st : MergeState Value Selector) (inputs : List Seq)
  | groupBy (key : KeyKind) (t : Tolerance) (run : Array Value) (input : Seq)
  | keepFirst (key : KeyKind) (t : Tolerance) (st : KeepFirst Value) (input : Seq)
  | keepLast (key : KeyKind) (t : Tolerance) (pending : Option Value) (input : Seq)
  /-- Output `index` of hub `hub`. -/
  | fork (hub index : Nat)
  | sum (st : SeriesSum Float) (left right : Seq)
  | product (st : Product Float) (left right : Seq)
  | reciprocal (st : Reciprocal Float) (input : Seq)
  | composition (st : Composition Float) (outer inner : Seq)
  | derivative (index : Nat) (input : Seq)
  | integral (index : Nat) (input : Seq)
  | compact (key : ScalarKind) (agg : Aggregator) (st : Compact Scalar Float Float)
      (samples buckets : Seq)
  | sampleMerge (key : ScalarKind) (t : Tolerance) (merged : MergeState (Nat × Scalar × Value) Unit)
      (st : SampleMerge Scalar Value) (inputs : List Seq)
  | linearize (key : ScalarKind) (epsilon : Float) (st : Linearize Scalar Float) (input : Seq)

instance : Inhabited Seq := ⟨.items []⟩

/-- The empty sequence. -/
def Seq.empty : Seq := .items []

namespace Seq

mutual

/-- The nesting depth of a pipeline within itself. -/
def depth : Seq → Nat
  | items _ | «repeat» _ _ | cycle _ _ | unary _ _ | binary _ _ _ | generate _ _ | hamming _
  | factorial _ _ _ | fork _ _ => 1
  | concat parts => depthAll parts + 1
  | filter _ _ s | map _ s | peek _ s | limit _ s | groupBy _ _ _ s | keepFirst _ _ _ s
  | keepLast _ _ _ s | reciprocal _ s | derivative _ s | integral _ s | linearize _ _ _ s =>
    depth s + 1
  | map2 _ a b | sum _ a b | product _ a b | composition _ a b | compact _ _ _ a b =>
    max (depth a) (depth b) + 1
  | zip _ _ inputs | merge _ _ inputs | sampleMerge _ _ _ _ inputs => depthAll inputs + 1

/-- The largest depth of a list of pipelines. -/
def depthAll : List Seq → Nat
  | [] => 0
  | s :: rest => max (depth s) (depthAll rest)

end

mutual

/-- The forks a pipeline holds, as hub and output index. -/
def forks : Seq → List (Nat × Nat)
  | items _ | «repeat» _ _ | cycle _ _ | unary _ _ | binary _ _ _ | generate _ _ | hamming _
  | factorial _ _ _ => []
  | fork h i => [(h, i)]
  | concat parts => forksAll parts
  | filter _ _ s | map _ s | peek _ s | limit _ s | groupBy _ _ _ s | keepFirst _ _ _ s
  | keepLast _ _ _ s | reciprocal _ s | derivative _ s | integral _ s | linearize _ _ _ s =>
    forks s
  | map2 _ a b | sum _ a b | product _ a b | composition _ a b | compact _ _ _ a b =>
    forks a ++ forks b
  | zip _ _ inputs | merge _ _ inputs | sampleMerge _ _ _ _ inputs => forksAll inputs

/-- The forks of a list of pipelines. -/
def forksAll : List Seq → List (Nat × Nat)
  | [] => []
  | s :: rest => forks s ++ forksAll rest

end

end Seq

/-- A hub: the upstream it shares among its forks, and their queues. -/
structure Hub where
  upstream : Seq
  queues : Queues Value

instance : Inhabited Hub := ⟨⟨Seq.empty, ⟨#[], none⟩⟩⟩

/-- Everything pipelines share: the hubs and the logs of `peek` nodes. -/
structure World where
  hubs : Array Hub
  logs : List (String × List Value)
deriving Inhabited

namespace World

/-- A world without hubs and logs. -/
def empty : World := ⟨#[], []⟩

/-- The log of a name, empty when nothing was logged. -/
def log (w : World) (name : String) : List Value :=
  (((w.logs.find? (·.1 == name)).map (·.2)).getD []).reverse

/-- Appends a value to a log (logs are kept newest first). -/
def record (w : World) (name : String) (v : Value) : World :=
  if w.logs.any (·.1 == name) then
    { w with logs := w.logs.map fun (n, vs) => if n == name then (n, v :: vs) else (n, vs) }
  else { w with logs := w.logs ++ [(name, [v])] }

/-- A new hub over `upstream` with `n` forks; its index. -/
def addHub (w : World) (upstream : Seq) (n : Nat) (capacity : Option Nat) : World × Nat :=
  ({ w with hubs := w.hubs.push ⟨upstream, Queues.create n capacity⟩ }, w.hubs.size)

/-- A bound on the nesting of any pipeline of this world together with `s`, counted through the
hubs. -/
def depthBudget (w : World) (s : Seq) : Nat :=
  s.depth + (w.hubs.toList.map fun h => h.upstream.depth + 1).foldr (· + ·) 0 + 1

/-- Releases the forks of a dropped pipeline; a hub whose forks are all released drops its
upstream in turn (within `fuel` hubs). -/
def release : Nat → List (Nat × Nat) → World → World
  | 0, _, w => w
  | _, [], w => w
  | fuel + 1, (h, i) :: rest, w =>
    match w.hubs[h]? with
    | none => release (fuel + 1) rest w
    | some hub =>
      if (hub.queues.queues[i]?).any Option.isSome then
        let queues := hub.queues.drop i
        if queues.allDropped then
          let w := { w with hubs := w.hubs.set! h ⟨Seq.empty, queues⟩ }
          release fuel (hub.upstream.forks ++ rest) w
        else release (fuel + 1) rest { w with hubs := w.hubs.set! h { hub with queues } }
      else release (fuel + 1) rest w
termination_by fuel rest => (fuel, rest.length)

/-- Drops a pipeline: its forks are released. -/
def drop (w : World) (s : Seq) : World := release (w.hubs.size + 1) s.forks w

end World

end LazySeq
