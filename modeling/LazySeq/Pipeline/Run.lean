import LazySeq.Pipeline.Build

/-!
# Running the steps of a request

A `run` request is a list of steps on one session: binding a pipeline to a name (`let`), forking
one (`tee`, `unzip`), reading a log, acting on a named pipeline (`do`), and building, querying
and merging time series. Each step answers a document or a fault, and a fault does not stop the
steps after it.

An action that reads a pipeline keeps it under its name, in the state the reads left it, even
when a read fails. `reduce`, `fold`, `evaluate` and `drop` consume the pipeline; it is dropped
afterwards.
-/

namespace LazySeq

open Build

/-- The capacities a bounded fork may have. -/
def capacities : List Nat := [1, 2, 3, 4, 5, 6, 8, 16, 64]

/-- The entries of a series as a document. -/
def entriesJson (s : Series Scalar Scalar) : Json :=
  .arr (s.entries.map fun e => Encode.value (EntryKind.toValue e))

/-- A list of names. -/
def namesField (step : Json) (field : String) : Build (List String) := do
  let items ← lift (Decode.arrField step field)
  match items.mapM Json.str? with
  | some names => pure names
  | none => throw (.bad "names must be strings")

/-- Binds names to forks in order and drops the forks left over. -/
def bindForks (names : List String) (forks : List Seq) : Build Unit := do
  for (name, fork) in names.zip forks do bind name fork
  for fork in forks.drop names.length do dropSeq fork

/-- Refuses the capacity of a fork, dropping the pipeline it would have split. -/
def refuseCapacity {α : Type} (s : Seq) : Build α := do
  dropSeq s
  throw (.bad "unsupported capacity")

/-- The `n` forks of a pipeline; with no forks the pipeline is dropped at once. -/
def forksOf (s : Seq) (n : Nat) (capacity : Option Nat) : Build (List Seq) := do
  if n = 0 then
    dropSeq s
    pure []
  else tee s n capacity

/-- A named pipeline, left in place. -/
def handle (name : String) : Build Seq := do
  match (← get).handles.find? (·.1 == name) with
  | some (_, s) => pure s
  | none => throw (.bad ("no sequence named " ++ quoteName name))

/-- Puts a pipeline back under its name. -/
def restore (name : String) (s : Seq) : Build Unit :=
  modify fun ss => { ss with handles := ss.handles.map fun (n, t) => if n == name then (n, s) else (n, t) }

/-- Runs a reading `f` on a named pipeline and puts the pipeline back. -/
def reading {α : Type} (name : String)
    (f : Feed (Seq × World) Value → Seq × World → Outcome α × (Seq × World)) : Build α := do
  let s ← handle name
  let ss ← get
  let (r, s, w) := f (s.feed ss.world) (s, ss.world)
  set { ss with world := w }
  restore name s
  match r with
  | .ok a => pure a
  | .error h => throw (Fault.ofHalt h)

/-- Runs a reading on a consumed pipeline and drops it afterwards. -/
def consuming {α : Type} (s : Seq)
    (f : Feed (Seq × World) Value → Seq × World → Outcome α × (Seq × World)) : Build α := do
  let ss ← get
  let (r, s, w) := f (s.feed ss.world) (s, ss.world)
  set { ss with world := w }
  dropSeq s
  match r with
  | .ok a => pure a
  | .error h => throw (Fault.ofHalt h)

/-- Up to `n` reads through the iterator view: each read is an element or a failure, and the
view ends at the end of the sequence. An abort ends the reads and fails the whole view with its
reason. -/
def iterate (feed : Feed σ Value) : Nat → List Json → σ → Except String (List Json) × σ
  | 0, acc, s => (.ok acc.reverse, s)
  | n + 1, acc, s =>
    match feed.pull s with
    | (.ok none, s) => (.ok acc.reverse, s)
    | (.ok (some v), s) => iterate feed n (.obj [("ok", Encode.value v)] :: acc) s
    | (.error (.fail e), s) => iterate feed n (Encode.fault (.seq e) :: acc) s
    | (.error (.abort r), s) => (.error r, s)

/-- An action on a named pipeline. -/
def action (step : Json) : Build Json := do
  let act ← lift (Decode.strField step "do")
  let name ← lift (Decode.strField step "h")
  let _ ← handle name
  match act with
  | "has_next" => return .bool (← reading name fun f s => f.hasNext s)
  | "try_next" => return Encode.value (← reading name fun f s => f.tryNext s)
  | "pull" => return Encode.option (← reading name fun f s => f.pull s)
  | "take" =>
    let n ← lift (Decode.natField step "n")
    return .arr ((← reading name fun f s => f.take n [] s).map Encode.value)
  | "take_all" => return .arr ((← reading name fun f s => f.takeAll loopBudget [] s).map Encode.value)
  | "iter" =>
    let n ← lift (Decode.natField step "n")
    let s ← handle name
    let ss ← get
    let (items, s, w) := iterate (s.feed ss.world) n [] (s, ss.world)
    set { ss with world := w }
    restore name s
    match items with
    | .ok items => return .arr items
    | .error r => throw (.abort r)
  | "reduce" =>
    let g ← lift (Decode.fn2 (← subField step "f"))
    let s ← takeHandle name
    return Encode.value (← consuming s fun f s => f.reduce g.apply loopBudget s)
  | "fold" =>
    let seed ← lift (Decode.value (← subField step "v"))
    let g ← lift (Decode.fn2 (← subField step "f"))
    let s ← takeHandle name
    return Encode.value (← consuming s fun f s => f.fold g.apply loopBudget seed s)
  | "evaluate" =>
    let x ← lift (Decode.floatField step "x")
    let n ← lift (Decode.natField step "n")
    let s ← takeHandle name
    let cs ← consuming s fun f s =>
      let (r, (_, s)) := (Limit.feed f).takeAll loopBudget [] (n, s)
      (r, s)
    return Encode.float (Coefficient.horner (cs.map Value.toF64) x)
  | "drop" =>
    dropSeq (← takeHandle name)
    return .null
  | _ => throw (.bad ("unknown action " ++ quoteName act))

/-- The series of the observations a pipeline yields, read as entries of the given kinds; the
pipeline is consumed. -/
def seriesOf (t : Tolerance) (kind : EntryKind) (s : Seq) : Build (Series Scalar Scalar) :=
  consuming s fun f s => Series.read t loopBudget (f.map kind.read) s

/-- A built series, or the refusal. -/
def built (r : Except SeqError (Series Scalar Scalar)) : Build (Series Scalar Scalar) :=
  match r with
  | .ok s => pure s
  | .error e => throw (.seq e)

/-- Answers a derived series and stores it under the name in `"as"`, if any. -/
def derived (step : Json) (kind : EntryKind) (s : Series Scalar Scalar) : Build Json := do
  if let some (.str name) := step.field? "as" then store name ⟨kind, s⟩
  return entriesJson s

/-- An optional key field: absent or null is none. -/
def keyField (step : Json) (name : String) (kind : ScalarKind) : Build (Option Scalar) := do
  match step.field? name with
  | none | some .null => pure none
  | some j => pure (some (kind.read (← lift (Decode.value j))))

/-- A query on a stored series. -/
def query (step : Json) : Build Json := do
  let q ← lift (Decode.strField step "ts_q")
  let stored ← series (← lift (Decode.strField step "ts"))
  let s := stored.series
  let key := stored.kind.key
  let valueJson (v : Option Scalar) : Json := Encode.value (Scalar.optValue v)
  match q with
  | "apply" =>
    let k ← lift (Decode.value ((step.field? "key").getD .null))
    return valueJson (s.apply (key.read k))
  | "apply_at" => return valueJson (s.applyAt (← keyField step "key" key))
  | "same_leg" => return .bool (s.sameLeg (← keyField step "x" key) (← keyField step "y" key))
  | "len" => return Json.nat s.entries.length
  | "is_empty" => return .bool s.entries.isEmpty
  | "entries" => return entriesJson s
  | "keys" => return .arr (s.keys.map fun k => valueJson k)
  | "default_value" => return valueJson s.defaultValue
  | "starts_at" => return valueJson s.startsAt
  | "ends_at" => return valueJson s.endsAt
  | "sub_series" =>
    let low ← keyField step "from" key
    let high ← keyField step "to" key
    derived step stored.kind (← lift ((s.subSeries low high).mapError Fault.seq))
  | "slice" =>
    let start ← lift (Decode.natField step "start")
    let stop ← lift (Decode.natField step "end")
    derived step stored.kind (← lift ((s.slice start stop).mapError Fault.seq))
  | "relocate" =>
    let t ← lift (Decode.tolerance step)
    let keys ← expr nestingBudget (← subField step "e")
    derived step stored.kind
      (← consuming keys fun f st => s.relocateFrom t loopBudget (f.map key.read) st)
  | _ => throw (.bad ("unknown query " ++ quoteName q))

/-- Stored series of one kind: the kind of the series named first (of the series named by the
empty name when there are none), which every named series must have. -/
def seriesOfOneKind (names : List String) : Build (EntryKind × List (Series Scalar Scalar)) := do
  let first ← series (names.headD "")
  let stored ← names.mapM series
  if stored.all (·.kind == first.kind) then pure (first.kind, stored.map (·.series))
  else throw (.bad "time series kinds differ")

/-- One step of a run. -/
def step (st : Json) : Build Json := do
  if let some (.str name) := st.field? "let" then
    let s ← expr nestingBudget (← subField st "e")
    bind name s
    return .null
  else if (st.field? "tee").isSome then
    let names ← namesField st "tee"
    let n ← lift (Decode.natField st "n")
    let s ← expr nestingBudget (← subField st "e")
    let capacity ← match st.field? "cap" with
      | none | some .null => pure none
      | some j =>
        match Decode.natOf j with
        | some c => if capacities.contains c then pure (some c) else refuseCapacity s
        | none => refuseCapacity s
    let forks ← forksOf s n capacity
    if names.length > n then
      for fork in forks do dropSeq fork
      throw (.bad "more names than forks")
    bindForks names forks
    return .null
  else if (st.field? "unzip").isSome then
    let names ← namesField st "unzip"
    let n ← lift (Decode.natField st "n")
    let s ← expr nestingBudget (← subField st "e")
    let forks ← forksOf s n none
    if names.length > n then
      for fork in forks do dropSeq fork
      throw (.bad "more names than forks")
    bindForks names (forks.zipIdx.map fun (f, i) => .map (.column i) f)
    return .null
  else if let some (.str name) := st.field? "log" then
    return .arr (((← get).world.log name).map Encode.value)
  else if let some (.str _) := st.field? "do" then action st
  else if let some (.str name) := st.field? "ts_new" then
    let t ← lift (Decode.tolerance st)
    let kindName ← lift (Decode.strField st "kv")
    let s ← expr nestingBudget (← subField st "e")
    let kind ← keeping [s] (lift (Decode.entryKind kindName))
    let series ← seriesOf t kind s
    store name ⟨kind, series⟩
    return entriesJson series
  else if let some (.str _) := st.field? "ts_q" then query st
  else if (st.field? "ts_merge").isSome then
    let names ← namesField st "ts_merge"
    let t ← lift (Decode.tolerance st)
    let (kind, all) ← seriesOfOneKind names
    let c := Decode.combiner (← lift (Decode.strField st "f"))
    let name ← lift (Decode.strField st "as")
    let combine (vs : List (Option Scalar)) : Option Scalar :=
      (c.apply (vs.map (·.map Scalar.toValue))).map kind.value.read
    let merged ← built (Series.merge t combine all)
    store name ⟨kind, merged⟩
    return entriesJson merged
  else if (st.field? "ts_steps").isSome then
    let names ← namesField st "ts_steps"
    let t ← lift (Decode.tolerance st)
    let (_, all) ← seriesOfOneKind names
    return .arr ((Series.steps t all).map fun (k, vs) =>
      .arr [Encode.value (Scalar.optValue k), .arr (vs.map fun v => Encode.value (Scalar.optValue v))])
  else throw (.bad "unknown step")

/-- Runs the steps of a request on a fresh session, answering each. -/
def runSteps (steps : List Json) : List Json :=
  let rec go : List Json → Session → List Json → List Json
    | [], _, acc => acc.reverse
    | st :: rest, ss, acc =>
      match (step st).run ss with
      | .ok v ss => go rest ss (.obj [("ok", v)] :: acc)
      | .error f ss => go rest ss (Encode.fault f :: acc)
  go steps ⟨[], [], World.empty⟩ []

end LazySeq
