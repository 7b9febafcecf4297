import TypedCircuit.Main
import TypedCircuit.Proofs.Arguments
import TypedCircuit.Proofs.Assigned.Comparisons
import TypedCircuit.Proofs.Assigned.Constants
import TypedCircuit.Proofs.Assigned.Formulas
import TypedCircuit.Proofs.Assigned.Selections
import TypedCircuit.Proofs.Assigned.Symmetry
import TypedCircuit.Proofs.Circuit.Acceptance
import TypedCircuit.Proofs.Codec.Decoding
import TypedCircuit.Proofs.Codec.KeyOrders
import TypedCircuit.Proofs.Codec.Matrices
import TypedCircuit.Proofs.Codec.RoundTrip
import TypedCircuit.Proofs.Constraints.Digests
import TypedCircuit.Proofs.Documents.Current
import TypedCircuit.Proofs.Documents.Layouts
import TypedCircuit.Proofs.Documents.Outcomes
import TypedCircuit.Proofs.Documents.Paths
import TypedCircuit.Proofs.Documents.Sizes
import TypedCircuit.Proofs.Documents.Writing
import TypedCircuit.Proofs.Field.Inverses
import TypedCircuit.Proofs.Field.Spelling
import TypedCircuit.Proofs.Field.Words
import TypedCircuit.Proofs.Hash.Grouping
import TypedCircuit.Proofs.Hash.Partition
import TypedCircuit.Proofs.Memo.PlainPass
import TypedCircuit.Proofs.Memo.Replay
import TypedCircuit.Proofs.Passes.StraightLine
import TypedCircuit.Proofs.Reduction.Compiling
import TypedCircuit.Proofs.Registry.Circles
import TypedCircuit.Proofs.Registry.Growth
import TypedCircuit.Proofs.Runs.Passes
import TypedCircuit.Proofs.Runs.Scoping
import TypedCircuit.Proofs.Runs.Silence
import TypedCircuit.Proofs.Scopes.Independence
import TypedCircuit.Proofs.Scopes.WriteOnce
import TypedCircuit.Script.Step
