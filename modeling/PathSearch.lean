import PathSearch.Bytes.Cursor
import PathSearch.Bytes.LittleEndian
import PathSearch.Digest
import PathSearch.Error
import PathSearch.Expr.Basic
import PathSearch.Expr.Build
import PathSearch.Expr.Canonical
import PathSearch.Expr.Eval
import PathSearch.Expr.Placed
import PathSearch.Expr.Printer
import PathSearch.Expr.Variables
import PathSearch.Graph
import PathSearch.Hook
import PathSearch.Machine.Assembler
import PathSearch.Machine.Codec
import PathSearch.Machine.Instruction
import PathSearch.Machine.Program
import PathSearch.Op
import PathSearch.Proofs.Word
import PathSearch.Scenario.Action
import PathSearch.Scenario.Datum
import PathSearch.Scenario.Hook
import PathSearch.Scenario.Program
import PathSearch.Scenario.Recipe
import PathSearch.Scenario.Settings
import PathSearch.Scenario.Tracked
import PathSearch.Search.Config
import PathSearch.Search.Explorer
import PathSearch.Search.Merge
import PathSearch.Search.Predicate
import PathSearch.Search.Random
import PathSearch.Search.Strategy
import PathSearch.Smt.Circuit
import PathSearch.Smt.Derived
import PathSearch.Smt.Forced
import PathSearch.Smt.Literal
import PathSearch.Smt.Lowering
import PathSearch.Smt.Polynomial
import PathSearch.Smt.Ranking
import PathSearch.Smt.Sat
import PathSearch.Smt.Script
import PathSearch.Smt.Search
import PathSearch.Solver.Basic
import PathSearch.Solver.Pinned
import PathSearch.State.Basic
import PathSearch.State.Constraints
import PathSearch.State.History
import PathSearch.State.Memory
import PathSearch.State.Registers
import PathSearch.State.Session
import PathSearch.State.Stream
import PathSearch.Step
import PathSearch.Text.Duration
import PathSearch.Text.Hex
import PathSearch.Text.Hidden
import PathSearch.Text.Quoted
import PathSearch.Text.Ratio
import PathSearch.Word
import PathSearch.Proofs.Op
import PathSearch.Proofs.Expr.Value
import PathSearch.Proofs.Expr.Build
import PathSearch.Proofs.Expr.Construction
import PathSearch.Proofs.Concrete
import PathSearch.Proofs.Memory
import PathSearch.Proofs.State
import PathSearch.Proofs.Stream
import PathSearch.Proofs.Solver.Exact
import PathSearch.Proofs.Session
import PathSearch.Proofs.Codec
import PathSearch.Proofs.Step
import PathSearch.Proofs.Search.Progress
import PathSearch.Proofs.Search.Soundness
import PathSearch.Proofs.Search.Completeness
import PathSearch.Proofs.Smt.Lowering
import PathSearch.Proofs.Smt.Backend
import PathSearch.Proofs.Smt.Derived
import PathSearch.Proofs.Smt.Polynomial
import PathSearch.Proofs.Smt.World
import PathSearch.Proofs.Smt.Gates
import PathSearch.Proofs.Smt.Shown
import PathSearch.Proofs.Smt.Arithmetic
import PathSearch.Proofs.Smt.Shifts
import PathSearch.Proofs.Smt.Fits
import PathSearch.Proofs.Smt.Operations
import PathSearch.Proofs.Smt.Lines
import PathSearch.Proofs.Smt.Represented
import PathSearch.Proofs.Smt.Forced
import PathSearch.Proofs.Smt.Encoding
import PathSearch.Proofs.Smt.Fitting
import PathSearch.Proofs.Smt.Sat
import PathSearch.Proofs.Solver.Faithful
import PathSearch.Proofs.Expr.Occurrence
import PathSearch.Proofs.Smt.Widths
import PathSearch.Proofs.Solver.Requests
import PathSearch.Proofs.Solver.Cache
import PathSearch.Proofs.Expr.Accepted
import PathSearch.Proofs.Checked
import PathSearch.Proofs.Expr.Checked
import PathSearch.Proofs.Expr.Printed
import PathSearch.Proofs.Expr.ReadBack
import PathSearch.Proofs.Refusal
import PathSearch.Proofs.Expr.Bit
import PathSearch.Proofs.Search.Merge
import PathSearch.Proofs.Search.MergeSound
import PathSearch.Proofs.Reachable
import PathSearch.Proofs.Resolution
import PathSearch.Proofs.Hook
import PathSearch.Proofs.Search.Feasible
import PathSearch.Proofs.Lineage
import PathSearch.Proofs.Access
import PathSearch.Proofs.Search.Resume
import PathSearch.Proofs.Search.Conservation
import PathSearch.Proofs.Search.Limits
import PathSearch.Proofs.Search.Global
import PathSearch.Proofs.Solver.Decisive
import PathSearch.Proofs.Solver.Enumeration
import PathSearch.Proofs.Alike
import PathSearch.Proofs.Anonymous
import PathSearch.Proofs.Search.Order
import PathSearch.Proofs.Bytes
import PathSearch.Proofs.Assembler
import PathSearch.Proofs.Digest
import PathSearch.Proofs.Sound
import PathSearch.Proofs.Entails
import PathSearch.Proofs.Faultless
import PathSearch.Proofs.Smt.Standard
import PathSearch.Proofs.Solver.Joint
import PathSearch.Proofs.Overlay
import PathSearch.Proofs.Expr.Slice
import PathSearch.Proofs.Copy
import PathSearch.Proofs.Expr.SharedValue
import PathSearch.Proofs.Malformed
import PathSearch.Proofs.RegionMap
import PathSearch.Proofs.Expr.Names
import PathSearch.Proofs.Names
import PathSearch.Proofs.Search.MergeNames
import PathSearch.Proofs.Search.MergeActive
import PathSearch.Proofs.Failure
import PathSearch.Proofs.Reading
import PathSearch.Proofs.Search.FreshResults
import PathSearch.Proofs.Search.Distinct
import PathSearch.Proofs.Expr.Nested
import PathSearch.Proofs.Topological
import PathSearch.Proofs.Cursor
import PathSearch.Proofs.Expr.Placed
import PathSearch.Proofs.Tracked
