import LambdaReader.Source
import LambdaReader.Node.Equality
import LambdaReader.Node.Data
import LambdaReader.Node.Visit
import LambdaReader.Proofs.Lexeme
import LambdaReader.Proofs.Scan
import LambdaReader.Proofs.Stream
import LambdaReader.Proofs.Relocation
import LambdaReader.Proofs.Reads.Adequacy
import LambdaReader.Proofs.Reads.Extend
import LambdaReader.Proofs.Grammar.Basic
import LambdaReader.Proofs.Grammar.Sound
import LambdaReader.Proofs.Grammar.Complete
import LambdaReader.Proofs.Grammar.Language
import LambdaReader.Proofs.Climbing
import LambdaReader.Proofs.Simulation
import LambdaReader.Proofs.Recorded
import LambdaReader.Proofs.WellFormed
import LambdaReader.Proofs.Writing
import LambdaReader.Proofs.ReadBack
import LambdaReader.Proofs.Yield
import LambdaReader.Proofs.Cutting
import LambdaReader.Proofs.Spelling
import LambdaReader.Proofs.Requests
import LambdaReader.Proofs.Refusal
import LambdaReader.Proofs.Failures
import LambdaReader.Proofs.Calls
import LambdaReader.Proofs.Height
import LambdaReader.Proofs.Nesting
import LambdaReader.Proofs.Compositional
import LambdaReader.Proofs.Depth
import LambdaReader.Proofs.Limit
import LambdaReader.Proofs.Pace
import LambdaReader.Proofs.Equality
import LambdaReader.Proofs.Layout
import LambdaReader.Proofs.Spans
import LambdaReader.Proofs.Composition
import LambdaReader.Proofs.Foresight
import LambdaReader.Proofs.Locality
import LambdaReader.Proofs.Blame
import LambdaReader.Proofs.Positions
import LambdaReader.Proofs.Excerpt
import LambdaReader.Proofs.Separators
import LambdaReader.Proofs.Reads.Trim
import LambdaReader.Proofs.Brackets
import LambdaReader.Proofs.Stretches
import LambdaReader.Proofs.Slices
import LambdaReader.Proofs.Regroup
import LambdaReader.Proofs.Concur
import LambdaReader.Proofs.Assignments
import LambdaReader.Proofs.Escaping
import LambdaReader.Proofs.Strictness
import LambdaReader.Proofs.Omission
import LambdaReader.Proofs.Concatenation
import LambdaReader.Proofs.Lines
import LambdaReader.Proofs.Journal
import LambdaReader.Proofs.Entries
import LambdaReader.Proofs.Atoms
import LambdaReader.Proofs.Serialization
import LambdaReader.Proofs.Readability
