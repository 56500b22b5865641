import TreeSchema.Case.Report
import TreeSchema.Check
import TreeSchema.CommandLine.Help
import TreeSchema.Definitions
import TreeSchema.Main
import TreeSchema.Matching
import TreeSchema.Program
import TreeSchema.Proofs.Case.Agreement
import TreeSchema.Proofs.Case.Suite
import TreeSchema.Proofs.Check
import TreeSchema.Proofs.Definitions.Blame
import TreeSchema.Proofs.Definitions.Compiling
import TreeSchema.Proofs.Matching.AliasChain
import TreeSchema.Proofs.Matching.Relevance
import TreeSchema.Proofs.Matching.CallDepth
import TreeSchema.Proofs.Matching.Erasure
import TreeSchema.Proofs.Matching.Failure
import TreeSchema.Proofs.Matching.Membership
import TreeSchema.Proofs.Schema.Depth
import TreeSchema.Proofs.Schema.FirstError
import TreeSchema.Proofs.Schema.NormalForm
import TreeSchema.Proofs.Schema.Rereading
import TreeSchema.Proofs.Schema.Singleton
import TreeSchema.Proofs.Token.Tiling
import TreeSchema.Proofs.Tree.Descent
import TreeSchema.Proofs.Tree.ErrorPlace
import TreeSchema.Proofs.Tree.RoundTrip
import TreeSchema.Reading.Path
import TreeSchema.Reading.Text
import TreeSchema.Schema.Description
import TreeSchema.Schema.Outline
import TreeSchema.Schema.Text
import TreeSchema.Snippet
import TreeSchema.Toml.Document
import TreeSchema.Tree.Text
import TreeSchema.Proofs.Matching.Echo
import TreeSchema.Proofs.Matching.Rearrangement
import TreeSchema.Proofs.Matching.FirstFit
import TreeSchema.Proofs.Matching.Rebuilding
import TreeSchema.Proofs.Matching.Productive
import TreeSchema.Proofs.Matching.Abbreviation
import TreeSchema.Proofs.Matching.Spine
import TreeSchema.Proofs.Matching.FixedList
import TreeSchema.Proofs.Definitions.Inline
import TreeSchema.Proofs.Reading.Form
import TreeSchema.Proofs.Reading.Listing
import TreeSchema.Proofs.Token.Spacing
import TreeSchema.Proofs.CommandLine.Default
