import LazySeq.Binary64.Basic
import LazySeq.Binary64.Shortest
import LazySeq.Binary64.Text
import LazySeq.Error
import LazySeq.Json.Basic
import LazySeq.Json.Reader
import LazySeq.Json.Writer
import LazySeq.Pipeline.Build
import LazySeq.Pipeline.Callbacks
import LazySeq.Pipeline.Decode
import LazySeq.Pipeline.Ops
import LazySeq.Pipeline.Run
import LazySeq.Pipeline.Scalar
import LazySeq.Pipeline.Seq
import LazySeq.Pipeline.Step
import LazySeq.PowerSeries.Coefficient
import LazySeq.PowerSeries.Hamming
import LazySeq.PowerSeries.Ops
import LazySeq.Proofs.Binary64.Order
import LazySeq.Proofs.PowerSeries.Composition
import LazySeq.Proofs.PowerSeries.Exact
import LazySeq.Proofs.PowerSeries.HammingOrder
import LazySeq.Proofs.PowerSeries.Product
import LazySeq.Proofs.PowerSeries.Reciprocal
import LazySeq.Proofs.Series.Buckets
import LazySeq.Proofs.Series.Cleanse
import LazySeq.Proofs.Series.Hull
import LazySeq.Proofs.Series.Invariant
import LazySeq.Proofs.Series.Lookup
import LazySeq.Proofs.Series.Merge
import LazySeq.Proofs.Series.Minimal
import LazySeq.Proofs.Series.Observations
import LazySeq.Proofs.Series.Ranked
import LazySeq.Proofs.Series.Resample
import LazySeq.Proofs.Series.Search
import LazySeq.Proofs.Series.Segmentation
import LazySeq.Proofs.Series.StepFunction
import LazySeq.Proofs.Series.Window
import LazySeq.Proofs.Stream.Delivery
import LazySeq.Proofs.Stream.Lookahead
import LazySeq.Proofs.Stream.Retry
import LazySeq.Proofs.Stream.Runs
import LazySeq.Proofs.Stream.Sequences
import LazySeq.Proofs.Stream.StableMerge
import LazySeq.Proofs.Stream.Yields
import LazySeq.Series.Basic
import LazySeq.Series.Compact
import LazySeq.Series.Linearize
import LazySeq.Series.Order
import LazySeq.Series.Samples
import LazySeq.Stream.Adapters
import LazySeq.Stream.Feed
import LazySeq.Stream.Group
import LazySeq.Stream.Hub
import LazySeq.Stream.Merge
import LazySeq.Stream.Zip
import LazySeq.Time.Calendar
import LazySeq.Time.Format
import LazySeq.Time.Moment
import LazySeq.Time.Parse
import LazySeq.Value.Arith
import LazySeq.Value.Basic
import LazySeq.Weak
import LazySeq.Main
import LazySeq.Proofs.Binary64.Symmetry
import LazySeq.Proofs.PowerSeries.Calculus
import LazySeq.Proofs.Series.Partition
import LazySeq.Proofs.Weak.Consistency
import LazySeq.Proofs.Stream.Zip
import LazySeq.Proofs.PowerSeries.HammingWindow
import LazySeq.Proofs.PowerSeries.KnownTerms
import LazySeq.Proofs.Series.HullVertices
import LazySeq.Proofs.Stream.Built
import LazySeq.Proofs.Series.Walk
