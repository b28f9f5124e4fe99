import RenderFold.Component.Basic
import RenderFold.Component.Catalog
import RenderFold.Component.Datum
import RenderFold.Component.Delayed
import RenderFold.Component.Engine
import RenderFold.Component.Evaluator
import RenderFold.Component.Factory
import RenderFold.Component.Queue
import RenderFold.Component.RenderFunction
import RenderFold.Data.Cache
import RenderFold.Data.Fields
import RenderFold.Data.Reader
import RenderFold.Data.Text
import RenderFold.Data.Value
import RenderFold.Decimal.Exact
import RenderFold.Decimal.Layout
import RenderFold.Decimal.Shortest
import RenderFold.Error
import RenderFold.Folding.Builder
import RenderFold.Folding.Comparison
import RenderFold.Folding.Error
import RenderFold.Folding.Findings
import RenderFold.Folding.Fold
import RenderFold.Folding.FoldedTree
import RenderFold.Folding.Frame
import RenderFold.Folding.Options
import RenderFold.Folding.Program
import RenderFold.Folding.Runs
import RenderFold.Folding.Synthesizer
import RenderFold.Folding.Walk
import RenderFold.Html.Plan
import RenderFold.Html.Serializer
import RenderFold.Manifest.Definitions
import RenderFold.Manifest.Reading
import RenderFold.Manifest.Views
import RenderFold.Markup.Escape
import RenderFold.Markup.Tag
import RenderFold.Proofs.Component.Aging
import RenderFold.Proofs.Component.Calls
import RenderFold.Proofs.Component.Children
import RenderFold.Proofs.Component.Confined
import RenderFold.Proofs.Component.Evaluated
import RenderFold.Proofs.Component.Hooks
import RenderFold.Proofs.Component.Matching
import RenderFold.Proofs.Component.Prefetching
import RenderFold.Proofs.Component.Properties
import RenderFold.Proofs.Component.Received
import RenderFold.Proofs.Component.Repeated
import RenderFold.Proofs.Component.Serials
import RenderFold.Proofs.Component.Sums
import RenderFold.Proofs.Data.Caches
import RenderFold.Proofs.Data.Fields
import RenderFold.Proofs.Decimal.Closest
import RenderFold.Proofs.Decimal.Nearest
import RenderFold.Proofs.Decimal.Packing
import RenderFold.Proofs.Decimal.Rounding
import RenderFold.Proofs.Decimal.Scientific
import RenderFold.Proofs.Decimal.Whole
import RenderFold.Proofs.Folding.Addressed
import RenderFold.Proofs.Folding.Agreement
import RenderFold.Proofs.Folding.Alongside
import RenderFold.Proofs.Folding.Blocks
import RenderFold.Proofs.Folding.Carried
import RenderFold.Proofs.Folding.CarriedCalls
import RenderFold.Proofs.Folding.CarriedComponents
import RenderFold.Proofs.Folding.CarriedEntries
import RenderFold.Proofs.Folding.CarriedLevels
import RenderFold.Proofs.Folding.CarriedPairs
import RenderFold.Proofs.Folding.CarriedRoots
import RenderFold.Proofs.Folding.CarriedWalks
import RenderFold.Proofs.Folding.Closings
import RenderFold.Proofs.Folding.Compared
import RenderFold.Proofs.Folding.Departed
import RenderFold.Proofs.Folding.Descents
import RenderFold.Proofs.Folding.Driven
import RenderFold.Proofs.Folding.Encountered
import RenderFold.Proofs.Folding.Ends
import RenderFold.Proofs.Folding.Entered
import RenderFold.Proofs.Folding.Faithful
import RenderFold.Proofs.Folding.Finished
import RenderFold.Proofs.Folding.Folds
import RenderFold.Proofs.Folding.FollowedLevels
import RenderFold.Proofs.Folding.Gathered
import RenderFold.Proofs.Folding.Hoisting
import RenderFold.Proofs.Folding.InStep
import RenderFold.Proofs.Folding.Leads
import RenderFold.Proofs.Folding.LevelForests
import RenderFold.Proofs.Folding.LevelMarkup
import RenderFold.Proofs.Folding.LevelTrees
import RenderFold.Proofs.Folding.LevelZones
import RenderFold.Proofs.Folding.Lined
import RenderFold.Proofs.Folding.LiteralTrees
import RenderFold.Proofs.Folding.Lookups
import RenderFold.Proofs.Folding.Meetings
import RenderFold.Proofs.Folding.Moves
import RenderFold.Proofs.Folding.Numbered
import RenderFold.Proofs.Folding.Pauses
import RenderFold.Proofs.Folding.Planted
import RenderFold.Proofs.Folding.Preserved
import RenderFold.Proofs.Folding.RawText
import RenderFold.Proofs.Folding.Reach
import RenderFold.Proofs.Folding.Records
import RenderFold.Proofs.Folding.Refolded
import RenderFold.Proofs.Folding.Repeats
import RenderFold.Proofs.Folding.Resumed
import RenderFold.Proofs.Folding.Returned
import RenderFold.Proofs.Folding.RunMarkup
import RenderFold.Proofs.Folding.Running
import RenderFold.Proofs.Folding.Soundness
import RenderFold.Proofs.Folding.Sources
import RenderFold.Proofs.Folding.Spread
import RenderFold.Proofs.Folding.Stacks
import RenderFold.Proofs.Folding.Stamped
import RenderFold.Proofs.Folding.Standing
import RenderFold.Proofs.Folding.Styles
import RenderFold.Proofs.Folding.Substituted
import RenderFold.Proofs.Folding.Surviving
import RenderFold.Proofs.Folding.Tended
import RenderFold.Proofs.Folding.Trampoline
import RenderFold.Proofs.Folding.Transparent
import RenderFold.Proofs.Folding.Traversal
import RenderFold.Proofs.Folding.Treated
import RenderFold.Proofs.Folding.Turns
import RenderFold.Proofs.Folding.Unnumbered
import RenderFold.Proofs.Folding.Untouched
import RenderFold.Proofs.Folding.Verbatim
import RenderFold.Proofs.Folding.Worked
import RenderFold.Proofs.Html.Amounts
import RenderFold.Proofs.Html.Brackets
import RenderFold.Proofs.Html.Quiet
import RenderFold.Proofs.Html.Renditions
import RenderFold.Proofs.Html.Serialized
import RenderFold.Proofs.Html.Served
import RenderFold.Proofs.Html.StartTags
import RenderFold.Proofs.Html.Written
import RenderFold.Proofs.Markup.Entities
import RenderFold.Proofs.Markup.Escaped
import RenderFold.Proofs.Script.Accepted
import RenderFold.Proofs.Script.Beginnings
import RenderFold.Proofs.Script.Building
import RenderFold.Proofs.Script.Bytes
import RenderFold.Proofs.Script.Bytewise
import RenderFold.Proofs.Script.Copies
import RenderFold.Proofs.Script.Edited
import RenderFold.Proofs.Script.Enclosed
import RenderFold.Proofs.Script.Followed
import RenderFold.Proofs.Script.Following
import RenderFold.Proofs.Script.Forests
import RenderFold.Proofs.Script.Fresh
import RenderFold.Proofs.Script.Grafts
import RenderFold.Proofs.Script.Grammar
import RenderFold.Proofs.Script.Grounded
import RenderFold.Proofs.Script.Lines
import RenderFold.Proofs.Script.Literals
import RenderFold.Proofs.Script.Names
import RenderFold.Proofs.Script.Numbers
import RenderFold.Proofs.Script.Ordered
import RenderFold.Proofs.Script.Parenthesized
import RenderFold.Proofs.Script.Parts
import RenderFold.Proofs.Script.Paths
import RenderFold.Proofs.Script.Places
import RenderFold.Proofs.Script.Positions
import RenderFold.Proofs.Script.Printable
import RenderFold.Proofs.Script.Quoted
import RenderFold.Proofs.Script.Reachable
import RenderFold.Proofs.Script.ReadTrees
import RenderFold.Proofs.Script.Reprinted
import RenderFold.Proofs.Script.Rereading
import RenderFold.Proofs.Script.Rewritten
import RenderFold.Proofs.Script.Shared
import RenderFold.Proofs.Script.Spans
import RenderFold.Proofs.Script.Spelling
import RenderFold.Proofs.Script.Taken
import RenderFold.Proofs.Script.Wrapping
import RenderFold.Proofs.Script.Zones
import RenderFold.Script.Arena
import RenderFold.Script.Data
import RenderFold.Script.Edit
import RenderFold.Script.Helper
import RenderFold.Script.Lexer
import RenderFold.Script.Node
import RenderFold.Script.Parser
import RenderFold.Script.Printer
import RenderFold.Script.Quoted
import RenderFold.Script.Shape
import RenderFold.Script.Token
import RenderFold.Script.Tree
import RenderFold.Text.Blank
import RenderFold.Text.Digits
import RenderFold.View.Basic
import RenderFold.View.NodeData
import RenderFold.View.StartTag
import RenderFold.View.Style
