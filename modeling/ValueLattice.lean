import ValueLattice.Ty.Matching
import ValueLattice.Ty.Document
import ValueLattice.Registry
import ValueLattice.Decimal.Double
import ValueLattice.Text.Quoted
import ValueLattice.Value.Basic
import ValueLattice.Value.Equality
import ValueLattice.Value.Printer
import ValueLattice.Value.Table
import ValueLattice.Value.Node
import ValueLattice.Value.Relation
import ValueLattice.Value.TypedList
import ValueLattice.Value.TypedMap
import ValueLattice.Builder.Any
import ValueLattice.Construct
import ValueLattice.NodeRun
import ValueLattice.Declaration
import ValueLattice.Proofs.Ty.Algebra
import ValueLattice.Proofs.Ty.Derivation
import ValueLattice.Proofs.Ty.Instantiation
import ValueLattice.Proofs.Ty.Instances
import ValueLattice.Proofs.Ty.Hereditary
import ValueLattice.Proofs.Ty.Recovery
import ValueLattice.Proofs.Ty.RowJoin
import ValueLattice.Proofs.Ty.Matching
import ValueLattice.Proofs.Ty.Frame
import ValueLattice.Proofs.Ty.Document
import ValueLattice.Proofs.Ty.Row
import ValueLattice.Proofs.Node.Annotations
import ValueLattice.Proofs.Node.Sharing
import ValueLattice.Proofs.Value.Built
import ValueLattice.Proofs.Value.Construct
import ValueLattice.Proofs.Value.Hash
import ValueLattice.Proofs.Value.Reflexivity
import ValueLattice.Proofs.Value.Printer
import ValueLattice.Proofs.Node.Updates
import ValueLattice.Proofs.Value.Closure
import ValueLattice.Proofs.Value.Lookup
import ValueLattice.Proofs.Value.Composition
import ValueLattice.Proofs.Value.InferredTable
import ValueLattice.Proofs.Value.SetAlgebra
import ValueLattice.Proofs.Value.Projection
import ValueLattice.Proofs.Value.MapAlgebra
import ValueLattice.Proofs.Value.ListAlgebra
import ValueLattice.Proofs.Builder.Bulk
import ValueLattice.Proofs.Builder.Reports
import ValueLattice.Proofs.Builder.Protocol
import ValueLattice.Proofs.Builder.Typing
import ValueLattice.Proofs.Builder.Choice
import ValueLattice.Proofs.Builder.DeclaredTuples
import ValueLattice.Proofs.Builder.Tuples
import ValueLattice.Proofs.Ty.Labels
import ValueLattice.Proofs.Value.Labels
import ValueLattice.Proofs.Value.CollectionLabels
import ValueLattice.Proofs.Builder.Labels
import ValueLattice.Proofs.Obtained
import ValueLattice.Proofs.Registry
