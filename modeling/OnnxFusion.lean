import OnnxFusion.Analysis.Compare
import OnnxFusion.Analysis.Measure
import OnnxFusion.Cli.Args
import OnnxFusion.Cli.Run
import OnnxFusion.Config
import OnnxFusion.Dataflow.Dict
import OnnxFusion.Dataflow.Graph
import OnnxFusion.Dataflow.Tables
import OnnxFusion.Edits
import OnnxFusion.Fault
import OnnxFusion.Fusion.Attention
import OnnxFusion.Fusion.Basic
import OnnxFusion.Fusion.ConvBatchNorm
import OnnxFusion.Fusion.Executor
import OnnxFusion.Fusion.LayerNorm
import OnnxFusion.Fusion.LogDiv
import OnnxFusion.Host
import OnnxFusion.Inference.Inputs
import OnnxFusion.Inference.Run
import OnnxFusion.Inference.Session
import OnnxFusion.Jobs
import OnnxFusion.Json.Basic
import OnnxFusion.Json.Read
import OnnxFusion.Json.Write
import OnnxFusion.Logging
import OnnxFusion.Main
import OnnxFusion.Matcher
import OnnxFusion.Model.Basic
import OnnxFusion.Model.Initializers
import OnnxFusion.Model.Json
import OnnxFusion.Model.Naming
import OnnxFusion.Netlist.Basic
import OnnxFusion.Netlist.Freeze
import OnnxFusion.Netlist.Import
import OnnxFusion.Netlist.Json
import OnnxFusion.Netlist.Probe
import OnnxFusion.Netlist.Query
import OnnxFusion.Netlist.Surgery
import OnnxFusion.Numeric.Binary
import OnnxFusion.Numeric.Fixed
import OnnxFusion.Numeric.Shortest
import OnnxFusion.Optimizer
import OnnxFusion.Order.Bitonic
import OnnxFusion.Order.Gallop
import OnnxFusion.Order.Runs
import OnnxFusion.Order.Sort
import OnnxFusion.Package.Metadata
import OnnxFusion.Package.Query
import OnnxFusion.Package.Version
import OnnxFusion.Pattern.Attention
import OnnxFusion.Pattern.Constraint
import OnnxFusion.Pattern.ConvBatchNorm
import OnnxFusion.Pattern.LayerNorm
import OnnxFusion.Pattern.LogDiv
import OnnxFusion.Pattern.Match
import OnnxFusion.Pattern.Registry
import OnnxFusion.Proofs.Analysis.Measure
import OnnxFusion.Proofs.Analysis.Ranking
import OnnxFusion.Proofs.Dataflow.Adjacency
import OnnxFusion.Proofs.Dataflow.Dict
import OnnxFusion.Proofs.Dataflow.Generations
import OnnxFusion.Proofs.Dataflow.Removal
import OnnxFusion.Proofs.Dataflow.Schedule
import OnnxFusion.Proofs.Dataflow.TableBuild
import OnnxFusion.Proofs.Dataflow.TableRemoval
import OnnxFusion.Proofs.Fusion.Blocks
import OnnxFusion.Proofs.Fusion.Edit
import OnnxFusion.Proofs.Fusion.Effects
import OnnxFusion.Proofs.Fusion.Faults
import OnnxFusion.Proofs.Fusion.Fold
import OnnxFusion.Proofs.Fusion.Footprint
import OnnxFusion.Proofs.Fusion.Plans
import OnnxFusion.Proofs.Fusion.Prepare
import OnnxFusion.Proofs.Matcher.Greedy
import OnnxFusion.Proofs.Matcher.Total
import OnnxFusion.Proofs.Model.Initializers
import OnnxFusion.Proofs.Model.Naming
import OnnxFusion.Proofs.Netlist.Freeze
import OnnxFusion.Proofs.Netlist.Growth
import OnnxFusion.Proofs.Netlist.Applied
import OnnxFusion.Proofs.Netlist.Iso
import OnnxFusion.Proofs.Netlist.Linked
import OnnxFusion.Proofs.Netlist.Links
import OnnxFusion.Proofs.Netlist.Probe
import OnnxFusion.Proofs.Netlist.Skeleton
import OnnxFusion.Proofs.Netlist.Splice
import OnnxFusion.Proofs.Optimizer.TensorNames
import OnnxFusion.Proofs.Order.FloatRank
import OnnxFusion.Proofs.Order.Layers
import OnnxFusion.Proofs.Order.Merge
import OnnxFusion.Proofs.Order.Network
import OnnxFusion.Proofs.Order.Perm
import OnnxFusion.Proofs.Order.Registers
import OnnxFusion.Proofs.Order.Stages
import OnnxFusion.Proofs.Order.ZeroOne
import OnnxFusion.Proofs.Pattern.Closure
import OnnxFusion.Proofs.Pattern.Reorder
import OnnxFusion.Proofs.Pattern.Walk
import OnnxFusion.Proofs.Pattern.Wiring
import OnnxFusion.Proofs.Tensor.Elementwise
import OnnxFusion.Random.Normal
import OnnxFusion.Random.Twister
import OnnxFusion.Store
import OnnxFusion.Tensor.Arith
import OnnxFusion.Tensor.Basic
import OnnxFusion.Tensor.Json
import OnnxFusion.Tensor.Reduce
import OnnxFusion.Text.Blank
import OnnxFusion.Text.Csv
import OnnxFusion.Text.Digit
import OnnxFusion.Text.Escape
import OnnxFusion.Text.Infix
import OnnxFusion.Text.Literal
import OnnxFusion.Text.Number
import OnnxFusion.Text.Printable
import OnnxFusion.Text.Table
import OnnxFusion.Text.Utf8
import OnnxFusion.Text.Word
import OnnxFusion.Value.Basic
import OnnxFusion.Value.Coerce
import OnnxFusion.Value.Json
import OnnxFusion.Value.Text
import OnnxFusion.Workspace
import OnnxFusion.Zip.Directory
import OnnxFusion.Proofs.Optimizer.FusionOrder
