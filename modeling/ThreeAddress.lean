import ThreeAddress.Code.Handle
import ThreeAddress.Code.Operation
import ThreeAddress.Code.Instruction
import ThreeAddress.Code.Program
import ThreeAddress.Code.ProgramStore
import ThreeAddress.Digraph.Handle
import ThreeAddress.Error
import ThreeAddress.Text.Braced
import ThreeAddress.Text.Label
import ThreeAddress.Fact.BitSet
import ThreeAddress.Fact.BitSet.Lemmas
import ThreeAddress.Fact.SiteSet
import ThreeAddress.Fact.ConstEnv
import ThreeAddress.Block.Basic
import ThreeAddress.Block.Chains
import ThreeAddress.Block.Summary
import ThreeAddress.Block.DeadCode
import ThreeAddress.Digraph.Basic
import ThreeAddress.Digraph.Search
import ThreeAddress.Digraph.SpanningTree
import ThreeAddress.Digraph.Dominators
import ThreeAddress.FlowGraph.Basic
import ThreeAddress.FlowGraph.Structure
import ThreeAddress.FlowGraph.Dot
import ThreeAddress.Dataflow.Settings
import ThreeAddress.Dataflow.Analysis
import ThreeAddress.Dataflow.Flow
import ThreeAddress.Dataflow.Solution
import ThreeAddress.Dataflow.ReachingDefinitions
import ThreeAddress.Dataflow.ReachingExpressions
import ThreeAddress.Dataflow.ConstantPropagation
import ThreeAddress.Dataflow.LiveVariables
import ThreeAddress.DeadStore
import ThreeAddress.Report
import ThreeAddress.Proofs.Code.History
import ThreeAddress.Proofs.Fact.Refinement
import ThreeAddress.Proofs.Fact.Inclusion
import ThreeAddress.Proofs.Text.Label
import ThreeAddress.Proofs.Digraph.Paths
import ThreeAddress.Proofs.Digraph.EdgeStores
import ThreeAddress.Proofs.Digraph.Reachability
import ThreeAddress.Proofs.Digraph.Dominance
import ThreeAddress.Proofs.Digraph.DominatorTree
import ThreeAddress.Proofs.Digraph.SweepCount
import ThreeAddress.Proofs.Dataflow.Laws
import ThreeAddress.Proofs.Dataflow.Passes
import ThreeAddress.Proofs.Dataflow.FixedPoint
import ThreeAddress.Proofs.FlowGraph.Wiring
import ThreeAddress.Proofs.FlowGraph.Existence
import ThreeAddress.Proofs.FlowGraph.Construction
import ThreeAddress.Proofs.FlowGraph.Rewiring
import ThreeAddress.Proofs.FlowGraph.Leaders
import ThreeAddress.Proofs.Block.Partition
import ThreeAddress.Proofs.Dataflow.Solver
import ThreeAddress.Proofs.Dataflow.Instructions
import ThreeAddress.Proofs.Dataflow.Consistency
import ThreeAddress.Proofs.FlowGraph.SingleEntry
import ThreeAddress.Proofs.Block.Chains
import ThreeAddress.Proofs.Block.DeadCode
import ThreeAddress.Proofs.Dataflow.Projection
import ThreeAddress.Proofs.Semantics.Execution
import ThreeAddress.Proofs.Dataflow.Liveness
import ThreeAddress.Proofs.Block.Summary
import ThreeAddress.Proofs.Block.Resolution
import ThreeAddress.Proofs.Block.Observation
import ThreeAddress.Proofs.DeadStore
import ThreeAddress.Proofs.DeadStore.JumpTargets
import ThreeAddress.Proofs.Dataflow.Constants
import ThreeAddress.Proofs.Dataflow.ConstantPasses
import ThreeAddress.Proofs.Semantics.Undefined
import ThreeAddress.Proofs.ConstantPropagation
import ThreeAddress.Proofs.Digraph.DepthFirst
import ThreeAddress.Proofs.Digraph.SearchOrders
import ThreeAddress.Proofs.Digraph.SpanningTree
import ThreeAddress.Proofs.Digraph.BackEdges
import ThreeAddress.Proofs.FlowGraph.Reducibility
import ThreeAddress.Proofs.FlowGraph.Drawing
import ThreeAddress.Proofs.Dataflow.PassCount
import ThreeAddress.Proofs.Dataflow.PassLimit
import ThreeAddress.Proofs.Dataflow.Flags
import ThreeAddress.Proofs.Dataflow.Sites
import ThreeAddress.Proofs.LiveVariables
import ThreeAddress.Proofs.DeadStore.Residue
import ThreeAddress.Proofs.DeadStore.StraightLine
import ThreeAddress.Proofs.ReachingDefinitions
import ThreeAddress.Proofs.ReachingDefinitions.Chains
import ThreeAddress.Proofs.ReachingExpressions
import ThreeAddress.Proofs.Dataflow.Obligations
import ThreeAddress.Proofs.Report
