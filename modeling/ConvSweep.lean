import ConvSweep.Apply
import ConvSweep.Arguments
import ConvSweep.BuildConfig
import ConvSweep.Deletion
import ConvSweep.Detect
import ConvSweep.Diagnostics
import ConvSweep.Draft
import ConvSweep.Edit
import ConvSweep.EditSet
import ConvSweep.EditSet.Json
import ConvSweep.FileTree
import ConvSweep.Formatter
import ConvSweep.FrontEnd
import ConvSweep.Json.Decode
import ConvSweep.Json.Number
import ConvSweep.Json.Reader
import ConvSweep.Json.Value
import ConvSweep.Json.Writer
import ConvSweep.Main
import ConvSweep.Merge
import ConvSweep.ParensTrial
import ConvSweep.Path
import ConvSweep.Print.Context
import ConvSweep.Print.Doc
import ConvSweep.Print.Layout
import ConvSweep.Print.Piece
import ConvSweep.Print.Printer
import ConvSweep.Print.Render
import ConvSweep.Program
import ConvSweep.Proofs.AddedParens
import ConvSweep.Proofs.Adjacency
import ConvSweep.Proofs.Carets
import ConvSweep.Proofs.ChainTrials
import ConvSweep.Proofs.Chains
import ConvSweep.Proofs.Children
import ConvSweep.Proofs.Conversions
import ConvSweep.Proofs.Coverage
import ConvSweep.Proofs.Decisions
import ConvSweep.Proofs.Deletion
import ConvSweep.Proofs.DeletionOutcome
import ConvSweep.Proofs.EditSets
import ConvSweep.Proofs.Exchange
import ConvSweep.Proofs.Fixing
import ConvSweep.Proofs.Fixpoint
import ConvSweep.Proofs.Fusion
import ConvSweep.Proofs.Header
import ConvSweep.Proofs.Identity
import ConvSweep.Proofs.Json
import ConvSweep.Proofs.Layout
import ConvSweep.Proofs.Leaves
import ConvSweep.Proofs.LeftText
import ConvSweep.Proofs.Leniency
import ConvSweep.Proofs.Lines
import ConvSweep.Proofs.Listings
import ConvSweep.Proofs.Merge
import ConvSweep.Proofs.MissingPositions
import ConvSweep.Proofs.Overlap
import ConvSweep.Proofs.Paths
import ConvSweep.Proofs.Pieces
import ConvSweep.Proofs.Positions
import ConvSweep.Proofs.Precedence
import ConvSweep.Proofs.Prune
import ConvSweep.Proofs.Reading
import ConvSweep.Proofs.Reordering
import ConvSweep.Proofs.Replacing
import ConvSweep.Proofs.Residue
import ConvSweep.Proofs.Rewriting
import ConvSweep.Proofs.SettingsSearch
import ConvSweep.Proofs.Slots
import ConvSweep.Proofs.Splicing
import ConvSweep.Proofs.Target
import ConvSweep.Proofs.Tokens
import ConvSweep.Proofs.Tree
import ConvSweep.Proofs.Trial
import ConvSweep.Proofs.TrialAnswers
import ConvSweep.Proofs.Typing
import ConvSweep.Proofs.Unambiguous
import ConvSweep.Proofs.Unwrapping
import ConvSweep.Proofs.Verdict
import ConvSweep.Proofs.Walk
import ConvSweep.Proofs.WrapperRemoval
import ConvSweep.Proofs.Wrappers
import ConvSweep.Removal
import ConvSweep.Settings
import ConvSweep.Settings.Search
import ConvSweep.Settings.Toml
import ConvSweep.SourceUnit
import ConvSweep.Text.Blank
import ConvSweep.Text.Bytes
import ConvSweep.Text.Digits
import ConvSweep.Text.LineIndex
import ConvSweep.Text.Lossy
import ConvSweep.Text.Quoted
import ConvSweep.Text.Unprintable
import ConvSweep.Token
import ConvSweep.Toml.Decode
import ConvSweep.Toml.Quotes
import ConvSweep.Toml.Reader
import ConvSweep.Toml.Scalar
import ConvSweep.Toml.Value
import ConvSweep.Tool.Basic
import ConvSweep.Tool.Filter
import ConvSweep.Tool.Script
import ConvSweep.Tool.Search
import ConvSweep.Tool.Shell
import ConvSweep.Tree.Node
import ConvSweep.Tree.Slot
import ConvSweep.Tree.Table
import ConvSweep.Tree.Walk
import ConvSweep.Types.Basic
import ConvSweep.Types.Display
import ConvSweep.Types.Identity
import ConvSweep.Types.Info
import ConvSweep.Types.Untyped
