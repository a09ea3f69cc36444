import PipeExpr.Main
import PipeExpr.Proofs.Encoding
import PipeExpr.Proofs.Decoding
import PipeExpr.Proofs.Evaluator
import PipeExpr.Proofs.Plan
import PipeExpr.Proofs.Emission
import PipeExpr.Proofs.Heights
import PipeExpr.Proofs.Tables
import PipeExpr.Proofs.Parts
import PipeExpr.Proofs.WellFormed
import PipeExpr.Proofs.Bounded
import PipeExpr.Proofs.Rules
import PipeExpr.Proofs.Simulation
import PipeExpr.Proofs.Chains
import PipeExpr.Proofs.Failures
import PipeExpr.Proofs.Safety
import PipeExpr.Proofs.Soundness
import PipeExpr.Proofs.Room
import PipeExpr.Proofs.Frames
import PipeExpr.Proofs.Variables
import PipeExpr.Proofs.Segments
import PipeExpr.Proofs.Tiling
import PipeExpr.Proofs.LexicalErrors
import PipeExpr.Proofs.Roundtrip
import PipeExpr.Proofs.Nodes
import PipeExpr.Proofs.Narrowing
import PipeExpr.Proofs.Signs
import PipeExpr.Proofs.Switches
import PipeExpr.Proofs.Patching
import PipeExpr.Proofs.CompileFailures
import PipeExpr.Proofs.Respacing
import PipeExpr.Proofs.NodeCode
import PipeExpr.Proofs.Layout
import PipeExpr.Proofs.Slices
import PipeExpr.Proofs.Operands
import PipeExpr.Proofs.Sites
import PipeExpr.Proofs.Forgiveness
import PipeExpr.Proofs.Grouping
import PipeExpr.Proofs.Absence
import PipeExpr.Proofs.WholeNumbers
import PipeExpr.Proofs.Addressing
import PipeExpr.Proofs.Literals
import PipeExpr.Proofs.Replays
import PipeExpr.Proofs.Relocating
import PipeExpr.Proofs.Fragments
import PipeExpr.Proofs.Seams
import PipeExpr.Proofs.Prefixes
import PipeExpr.Proofs.Indices
import PipeExpr.Proofs.Extending
import PipeExpr.Proofs.Accesses
import PipeExpr.Proofs.Synonyms
import PipeExpr.Proofs.Keys
import PipeExpr.Proofs.Entries
import PipeExpr.Proofs.Spellings
import PipeExpr.Proofs.ArrayHandlers
import PipeExpr.Proofs.EmptySegments
import PipeExpr.Proofs.PropertyNames
import PipeExpr.Proofs.Equality
import PipeExpr.Proofs.KeyedHandlers
import PipeExpr.Proofs.Splitting
import PipeExpr.Proofs.Integers
import PipeExpr.Proofs.Documents
import PipeExpr.Proofs.Words
import PipeExpr.Proofs.Nesting
import PipeExpr.Proofs.Balance
import PipeExpr.Proofs.Traces
import PipeExpr.Proofs.ErrorPlaces
import PipeExpr.Proofs.Positions
import PipeExpr.Proofs.NumberSyntax
import PipeExpr.Proofs.Overflow
import PipeExpr.Proofs.NumberTokens
import PipeExpr.Proofs.Comparing
import PipeExpr.Proofs.WellFormedValues
import PipeExpr.Proofs.WellFormedRuns
import PipeExpr.Proofs.WellFormedDocuments
