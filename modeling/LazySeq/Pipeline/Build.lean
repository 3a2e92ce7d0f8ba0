import LazySeq.Pipeline.Step
import LazySeq.Pipeline.Decode
import LazySeq.Series.Basic

/-!
# Building pipelines from requests

A session holds named pipelines, named time series and the world they share. An expression is
built by reading its own fields first (its tolerance before the others) and then building its
inputs, left to right. The kind of key or entry a node reads its elements as is looked up after
its inputs are built, as is any check that needs the inputs, such as the count of a pair. A `ref` moves a named pipeline
into the expression. When building fails, every pipeline already built for the
expression is dropped, which releases its forks, and the names it moved stay gone.

Some constructors read their inputs at once and refuse what they find: a product of an empty
series, a reciprocal of a series whose leading coefficient is (nearly) zero, a composition with
an inner constant term. Their inputs are dropped with the refusal.
-/

namespace LazySeq

/-- A time series with the kinds of its keys and values. -/
structure StoredSeries where
  kind : EntryKind
  series : Series Scalar Scalar

/-- Named pipelines, named time series and the world they share. -/
structure Session where
  handles : List (String × Seq)
  stored : List (String × StoredSeries)
  world : World

/-- Steps on a session that may fail; the session is kept either way. -/
abbrev Build := EStateM Fault Session

namespace Build

/-- The result of a decoding, in a build. -/
def lift {α : Type} (r : Except Fault α) : Build α :=
  match r with
  | .ok a => pure a
  | .error f => throw f

/-- Drops a pipeline: its forks are released. -/
def dropSeq (s : Seq) : Build Unit := modify fun ss => { ss with world := ss.world.drop s }

/-- Runs `m`; when it fails, the pipelines `pieces` are dropped first. -/
def keeping {α : Type} (pieces : List Seq) (m : Build α) : Build α :=
  tryCatch m fun f => do
    for s in pieces do dropSeq s
    throw f

/-- Moves a named pipeline out of the session. -/
def takeHandle (name : String) : Build Seq := do
  let ss ← get
  match ss.handles.find? (·.1 == name) with
  | some (_, s) =>
    set { ss with handles := ss.handles.filter (·.1 != name) }
    pure s
  | none => throw (.bad ("no sequence named " ++ quoteName name))

/-- Binds a name to a pipeline, dropping the one it named before. -/
def bind (name : String) (s : Seq) : Build Unit := do
  let ss ← get
  match ss.handles.find? (·.1 == name) with
  | some (_, old) =>
    set { ss with handles := ss.handles.map fun (n, t) => if n == name then (n, s) else (n, t) }
    dropSeq old
  | none => set { ss with handles := ss.handles ++ [(name, s)] }

/-- A stored time series. -/
def series (name : String) : Build StoredSeries := do
  match (← get).stored.find? (·.1 == name) with
  | some (_, s) => pure s
  | none => throw (.bad ("no time series named " ++ quoteName name))

/-- Stores a time series under a name. -/
def store (name : String) (s : StoredSeries) : Build Unit :=
  modify fun ss => { ss with stored := (ss.stored.filter (·.1 != name)) ++ [(name, s)] }

/-- Lifts a call on a pipeline and the world. -/
def call {α : Type} (f : Seq → World → Outcome α × Seq × World) (s : Seq) : Build (α × Seq) := do
  let ss ← get
  let (r, s, w) := f s ss.world
  set { ss with world := w }
  match r with
  | .ok a => pure (a, s)
  | .error h => do
    dropSeq s
    throw (Fault.ofHalt h)

/-- Lifts a call on a pipeline and the world; a failure keeps the pipeline. -/
def callKeep {α : Type} (f : Seq → World → Outcome α × Seq × World) (s : Seq) :
    Build (Outcome α × Seq) := do
  let ss ← get
  let (r, s, w) := f s ss.world
  set { ss with world := w }
  pure (r, s)

/-- `hasNext` of a pipeline. -/
def hasNext (s : Seq) : Build (Bool × Seq) := call Seq.hasNext s

/-- The next element of a pipeline, if any; the pipeline is dropped when it fails. -/
def pull (s : Seq) : Build (Option Value × Seq) :=
  call (fun s w => let (r, (s, w)) := (s.feed w).pull (s, w); (r, s, w)) s

/-- A refusal of a constructor, dropping its inputs. -/
def refuse {α : Type} (inputs : List Seq) (reason : String) : Build α := do
  for s in inputs do dropSeq s
  throw (.seq (.invalidArgument reason))

/-- The product of two series; both must have a first coefficient. -/
def multiply (left right : Seq) : Build Seq := do
  let (l, left) ← keeping [right] (hasNext left)
  if !l then refuse [left, right] "cannot multiply by an empty series"
  else
    let (r, right) ← keeping [left] (hasNext right)
    if !r then refuse [left, right] "cannot multiply by an empty series"
    else pure (.product Product.initial left right)

/-- The reciprocal of a series with a leading coefficient beyond the tolerance. -/
def inverse (t : Tolerance) (s : Seq) : Build Seq := do
  let (leading, s) ← pull s
  match leading with
  | none => refuse [s] "cannot invert an empty series"
  | some v =>
    let c := v.toF64
    if c.abs ≤ t.epsilon then
      refuse [s] ("cannot invert a series with leading coefficient " ++ Binary64.toPlainText c)
    else pure (.reciprocal (Reciprocal.start c) s)

/-- The composition `outer(inner)`; the inner constant term must be within the tolerance of 0. -/
def compose (t : Tolerance) (outer inner : Seq) : Build Seq := do
  let (o, outer) ← keeping [inner] (hasNext outer)
  if !o then refuse [outer, inner] "cannot compose an empty outer series"
  else
    let (c, inner) ← keeping [outer] (pull inner)
    match c with
    | none => refuse [outer, inner] "cannot compose with an empty inner series"
    | some v =>
      let c := v.toF64
      if c.abs > t.epsilon then
        refuse [outer, inner] ("inner series must have a zero constant term, got " ++ Binary64.toPlainText c)
      else pure (.composition Composition.initial outer inner)

/-- Forks of a new hub over `s`: output `i` for each `i < n`. -/
def tee (s : Seq) (n : Nat) (capacity : Option Nat) : Build (List Seq) := do
  let ss ← get
  let (w, h) := ss.world.addHub s n capacity
  set { ss with world := w }
  pure ((List.range n).map (Seq.fork h))

end Build

open Build

/-- The values of the special doubles, as values. -/
def floats (xs : List Float) : List Value := xs.map Value.float

/-- The entries of a series as pair values. -/
def entryValues (s : Series Scalar Scalar) : List Value := s.entries.map EntryKind.toValue

/-- A sub-expression field. -/
def subField (e : Json) (name : String) : Build Json := lift (Decode.field e name)

mutual

/-- Builds the pipeline of an expression (within `fuel` levels of nesting). -/
def expr : Nat → Json → Build Seq
  | 0, _ => throw (.bad "expression nested too deeply")
  | fuel + 1, e => do
    let k ← lift (Decode.strField e "k")
    match k with
    | "of" => return .items (← lift (Decode.values (← lift (Decode.arrField e "v"))))
    | "empty" => return .items []
    | "singleton" => return .items [← lift (Decode.value (← subField e "v"))]
    | "repeat" => return .repeat (← lift (Decode.value (← subField e "v"))) none
    | "repeat_n" =>
      let v ← lift (Decode.value (← subField e "v"))
      return .repeat v (some (← lift (Decode.natField e "n")))
    | "cycle" => return .cycle (← lift (Decode.values (← lift (Decode.arrField e "v")))) 0
    | "unary" =>
      let seed ← lift (Decode.value (← subField e "v"))
      return .unary seed (← lift (Decode.fn1 (← subField e "f")))
    | "binary" =>
      match ← lift (Decode.values (← lift (Decode.arrField e "v"))) with
      | [a, b] => return .binary a b (← lift (Decode.fn2 (← subField e "f")))
      | _ => throw (.bad "binary needs two seeds")
    | "generate" =>
      let start ← lift (Decode.value (← subField e "v"))
      return .generate start (← lift (Decode.value (← subField e "step")))
    | "concat" => return .concat (← exprs fuel [] (← lift (Decode.arrField e "ss")))
    | "ref" => takeHandle (← lift (Decode.strField e "name"))
    | "hamming" =>
      let moduli ← lift (Decode.arrField e "v")
      match moduli.mapM Decode.natOf with
      | some ms =>
        if ms.any (· ≥ Nat.pow 2 64) then throw (.bad "moduli must be non-negative integers")
        else
          match Hamming.make ms with
          | .ok h => return .hamming h
          | .error err => throw (.seq err)
      | none => throw (.bad "moduli must be non-negative integers")
    | "fibonacci" => return .binary (.float 0) (.float 1) (.arith .add)
    | "factorial" => return .factorial 0 1 false
    | "exp" => return .factorial 0 1 true
    | "sin" => return .map2 (.arith .mul) (.factorial 0 1 true) (.cycle (floats [0, 1, 0, -1]) 0)
    | "cos" => return .map2 (.arith .mul) (.factorial 0 1 true) (.cycle (floats [1, 0, -1, 0]) 0)
    | "ts_seq" =>
      let stored ← series (← lift (Decode.strField e "name"))
      return .items (entryValues stored.series)
    | "filter" =>
      let p ← lift (Decode.pred (← subField e "p"))
      return .filter p none (← expr fuel (← subField e "s"))
    | "map" =>
      let f ← lift (Decode.fn1 (← subField e "f"))
      return .map f (← expr fuel (← subField e "s"))
    | "map2" =>
      let f ← lift (Decode.fn2 (← subField e "f"))
      let (a, b) ← pairOf fuel e
      return .map2 f a b
    | "peek" =>
      let log ← lift (Decode.strField e "log")
      return .peek log (← expr fuel (← subField e "s"))
    | "limit" =>
      let n ← lift (Decode.natField e "n")
      return .limit n (← expr fuel (← subField e "s"))
    | "group_by" | "keep_first" | "skip_duplicates" | "keep_last" =>
      let t ← lift (Decode.tolerance e)
      let keyName ← lift (Decode.strField e "key")
      let s ← expr fuel (← subField e "s")
      let key ← keeping [s] (lift (Decode.keyKind keyName))
      match k with
      | "group_by" => return .groupBy key t #[] s
      | "keep_last" => return .keepLast key t none s
      | _ => return .keepFirst key t KeepFirst.initial s
    | "zip" =>
      let weak ← lift (Decode.boolField e "weak" true)
      return .zip weak #[] (← exprs fuel [] (← lift (Decode.arrField e "ss")))
    | "merge" =>
      let sel ← lift (Decode.selector (← subField e "sel"))
      let weak ← lift (Decode.boolField e "weak" true)
      return .merge weak (MergeState.initial sel) (← exprs fuel [] (← lift (Decode.arrField e "ss")))
    | "add" | "subtract" =>
      let (a, b) ← pairOf fuel e
      return .sum ⟨if k = "add" then 1 else -1, none⟩ a b
    | "negate" => return .map (.scaleBy (-1)) (← expr fuel (← subField e "s"))
    | "scale" =>
      let x ← lift (Decode.floatField e "x")
      return .map (.scaleBy x) (← expr fuel (← subField e "s"))
    | "multiply" =>
      let (a, b) ← pairOf fuel e
      multiply a b
    | "square" =>
      let s ← expr fuel (← subField e "s")
      match ← tee s 2 none with
      | [a, b] => multiply a b
      | _ => throw (.bad "square needs two forks")
    | "inverse" =>
      let t ← lift (Decode.tolerance e)
      inverse t (← expr fuel (← subField e "s"))
    | "divide" =>
      let t ← lift (Decode.tolerance e)
      let (a, b) ← pairOf fuel e
      let inv ← keeping [a] (inverse t b)
      multiply a inv
    | "compose" =>
      let t ← lift (Decode.tolerance e)
      let (a, b) ← pairOf fuel e
      compose t a b
    | "derivative" => return .derivative 0 (← expr fuel (← subField e "s"))
    | "integral" => return .integral 0 (← expr fuel (← subField e "s"))
    | "cleanse" =>
      let t ← lift (Decode.tolerance e)
      let kvName ← lift (Decode.strField e "kv")
      let s ← expr fuel (← subField e "s")
      let kv ← keeping [s] (lift (Decode.entryKind kvName))
      return .keepFirst (.entryValue kv) t KeepFirst.initial
        (.keepLast (.entryKey kv) t none (.map (.entry kv) s))
    | "compact" =>
      let agg ← lift (Decode.aggregator (← lift (Decode.strField e "agg")))
      let keyName ← lift (Decode.strField e "key")
      let s ← expr fuel (← subField e "s")
      let buckets ← keeping [s] (expr fuel (← subField e "buckets"))
      let key ← keeping [s, buckets] (lift (Decode.scalarKind keyName [.real, .whole, .text, .time]))
      return .compact key agg Compact.initial s buckets
    | "merge_samples" | "merge_with" =>
      let t ← lift (Decode.tolerance e)
      let keyName ← lift (Decode.strField e "key")
      let combine ← if k = "merge_with" then
          some <$> lift (Decode.sampleCombiner (← lift (Decode.strField e "f")))
        else pure none
      let inputs ← exprs fuel [] (← lift (Decode.arrField e "ss"))
      let key ← keeping inputs (lift (Decode.scalarKind keyName [.real, .whole, .text, .time]))
      let merged := Seq.sampleMerge key t (MergeState.initial ()) (SampleMerge.initial inputs.length) inputs
      match combine with
      | some c => return .map (.combine c) merged
      | none => return merged
    | "linearize" =>
      let eps ← lift (Decode.floatField e "eps")
      let keyName ← lift (Decode.strField e "key")
      let s ← expr fuel (← subField e "s")
      let key ← keeping [s] (lift (Decode.scalarKind keyName [.real, .whole, .time]))
      match Linearize.make eps with
      | .ok st => return .linearize key eps st s
      | .error err => do
        dropSeq s
        throw (.seq err)
    | _ => throw (.bad ("unknown sequence kind " ++ quoteName k))

/-- Builds a list of expressions in order; when one fails, those built before are dropped. -/
def exprs : Nat → List Seq → List Json → Build (List Seq)
  | _, built, [] => pure built.reverse
  | fuel, built, e :: es => do
    let s ← keeping built (expr fuel e)
    exprs fuel (s :: built) es

/-- Builds the expressions of an `ss` field, which must be exactly two; otherwise they are dropped. -/
def pairOf (fuel : Nat) (e : Json) : Build (Seq × Seq) := do
  match ← exprs fuel [] (← lift (Decode.arrField e "ss")) with
  | [a, b] => pure (a, b)
  | built =>
    for s in built do dropSeq s
    throw (.bad "\"ss\" must hold exactly two sequences")

end

/-- The nesting an expression may have. -/
def nestingBudget : Nat := 1000

end LazySeq
