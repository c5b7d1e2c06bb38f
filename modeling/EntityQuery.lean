import EntityQuery.Catalog
import EntityQuery.Double
import EntityQuery.Double.Shortest
import EntityQuery.Execution
import EntityQuery.Execution.Distinct
import EntityQuery.Execution.Entity
import EntityQuery.Execution.Groups
import EntityQuery.Execution.Merge
import EntityQuery.Execution.Source
import EntityQuery.Fanout
import EntityQuery.Fanout.Component
import EntityQuery.Fanout.Plan
import EntityQuery.Fanout.Splitter
import EntityQuery.Fault
import EntityQuery.Filter
import EntityQuery.Filter.Clauses
import EntityQuery.Filter.Matching
import EntityQuery.Filter.Shown
import EntityQuery.Heap
import EntityQuery.Index
import EntityQuery.Index.Advice
import EntityQuery.Index.Component
import EntityQuery.Index.Coverage
import EntityQuery.Index.Document
import EntityQuery.Index.Need
import EntityQuery.Index.NormalForm
import EntityQuery.Key
import EntityQuery.Planner
import EntityQuery.Proofs.Catalog.Document
import EntityQuery.Proofs.Catalog.Entries
import EntityQuery.Proofs.Catalog.Growth
import EntityQuery.Proofs.Catalog.Reading
import EntityQuery.Proofs.Catalog.RoundTrip
import EntityQuery.Proofs.Catalog.Text
import EntityQuery.Proofs.Execution.Contents
import EntityQuery.Proofs.Execution.Coverage
import EntityQuery.Proofs.Execution.EntityOrder
import EntityQuery.Proofs.Execution.Interleaving
import EntityQuery.Proofs.Execution.KeysOnly
import EntityQuery.Proofs.Execution.Laziness
import EntityQuery.Proofs.Execution.Lockstep
import EntityQuery.Proofs.Execution.Order
import EntityQuery.Proofs.Execution.Sorted
import EntityQuery.Proofs.Execution.Streams
import EntityQuery.Proofs.Execution.Trace
import EntityQuery.Proofs.Fanout.Ceiling
import EntityQuery.Proofs.Fanout.Enumeration
import EntityQuery.Proofs.Fanout.Meaning
import EntityQuery.Proofs.Fanout.Native
import EntityQuery.Proofs.Fanout.Order
import EntityQuery.Proofs.Fanout.Overlap
import EntityQuery.Proofs.Fanout.Partition
import EntityQuery.Proofs.Fanout.Serial
import EntityQuery.Proofs.Fanout.Splitting
import EntityQuery.Proofs.Filter.Clauses
import EntityQuery.Proofs.Filter.Depth
import EntityQuery.Proofs.Filter.Family
import EntityQuery.Proofs.Filter.Idempotence
import EntityQuery.Proofs.Filter.Passing
import EntityQuery.Proofs.Heap.Lockstep
import EntityQuery.Proofs.Heap.Order
import EntityQuery.Proofs.Heap.Shape
import EntityQuery.Proofs.Index.Addition
import EntityQuery.Proofs.Index.Agreement
import EntityQuery.Proofs.Index.Existence
import EntityQuery.Proofs.Index.Geospatial
import EntityQuery.Proofs.Index.Names
import EntityQuery.Proofs.Index.Optimality
import EntityQuery.Proofs.Index.Pooling
import EntityQuery.Proofs.Index.Postfix
import EntityQuery.Proofs.Index.Reduction
import EntityQuery.Proofs.Index.Remainder
import EntityQuery.Proofs.Index.Shape
import EntityQuery.Proofs.Index.Shortcut
import EntityQuery.Proofs.Index.Simplification
import EntityQuery.Proofs.Index.Stability
import EntityQuery.Proofs.Index.Symmetry
import EntityQuery.Proofs.Index.Trailing
import EntityQuery.Proofs.Index.WellFormed
import EntityQuery.Proofs.Key.Ancestry
import EntityQuery.Proofs.Key.Order
import EntityQuery.Proofs.Key.Spelling
import EntityQuery.Proofs.Lockstep
import EntityQuery.Proofs.Outcome
import EntityQuery.Proofs.Pairing
import EntityQuery.Proofs.Planner.Convergence
import EntityQuery.Proofs.Planner.Uniformity
import EntityQuery.Proofs.Query.Legality
import EntityQuery.Proofs.Query.Rules
import EntityQuery.Proofs.Query.Selectors
import EntityQuery.Proofs.Repetition
import EntityQuery.Proofs.Sorting.Merging
import EntityQuery.Proofs.Sorting.Runs
import EntityQuery.Proofs.Sorting.Sorted
import EntityQuery.Proofs.Value.Alike
import EntityQuery.Proofs.Value.Consistency
import EntityQuery.Proofs.Value.Distinct
import EntityQuery.Proofs.Value.Identity
import EntityQuery.Proofs.Value.Interchange
import EntityQuery.Proofs.Value.Order
import EntityQuery.Proofs.Value.Time
import EntityQuery.Proofs.Yaml.Block
import EntityQuery.Proofs.Yaml.Document
import EntityQuery.Proofs.Yaml.Node
import EntityQuery.Proofs.Yaml.Printer
import EntityQuery.Proofs.Yaml.Quoted
import EntityQuery.Proofs.Yaml.Token
import EntityQuery.Proofs.Yaml.Word
import EntityQuery.Query
import EntityQuery.Query.Legality
import EntityQuery.Query.Selectors
import EntityQuery.Settings
import EntityQuery.Settings.Loading
import EntityQuery.Sorting
import EntityQuery.Sorting.Merge
import EntityQuery.Sorting.Run
import EntityQuery.Text.Blank
import EntityQuery.Text.Lines
import EntityQuery.Text.Numeral
import EntityQuery.Text.Path
import EntityQuery.Text.Quoted
import EntityQuery.Text.Unseen
import EntityQuery.Time
import EntityQuery.Timestamp
import EntityQuery.Toml.Document
import EntityQuery.Toml.Number
import EntityQuery.Toml.Quoted
import EntityQuery.Toml.Table
import EntityQuery.Value
import EntityQuery.Value.Identity
import EntityQuery.Value.Order
import EntityQuery.Value.Reading
import EntityQuery.Yaml.Cursor
import EntityQuery.Yaml.Document
import EntityQuery.Yaml.Node
import EntityQuery.Yaml.Printer
import EntityQuery.Yaml.Quoted
import EntityQuery.Yaml.Scalar
import EntityQuery.Yaml.Token
import EntityQuery.Yaml.Word
