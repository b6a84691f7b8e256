import Scripting.CommandLine
import Scripting.Directory
import Scripting.Error
import Scripting.Kind
import Scripting.Machine
import Scripting.Main
import Scripting.Number.Binary64
import Scripting.Number.Decimal
import Scripting.Number.Shortest
import Scripting.Operator
import Scripting.Output
import Scripting.Position
import Scripting.Repl
import Scripting.Scope
import Scripting.Scope.Handles
import Scripting.Scope.Release
import Scripting.Session
import Scripting.Text.Blank
import Scripting.Text.Cluster
import Scripting.Text.ClusterClass
import Scripting.Text.CodeRange
import Scripting.Text.Extending
import Scripting.Text.Quoted
import Scripting.Text.Typed
import Scripting.Text.Unprintable
import Scripting.Token
import Scripting.Token.Scan
import Scripting.Tree
import Scripting.Tree.Grammar
import Scripting.Value
import Scripting.Value.Builtins
import Scripting.Value.Operators
import Scripting.Proofs.Results
import Scripting.Proofs.Operations
import Scripting.Proofs.Trees
import Scripting.Proofs.Chain
import Scripting.Proofs.Reclaim
import Scripting.Proofs.Agreement
import Scripting.Proofs.Lockstep
import Scripting.Proofs.History
import Scripting.Proofs.Transparency
import Scripting.Proofs.Reading
import Scripting.Proofs.Lossless
import Scripting.Proofs.Room
import Scripting.Proofs.Limits
import Scripting.Proofs.ReadBack
import Scripting.Proofs.RoundTrip
import Scripting.Proofs.Levels
import Scripting.Proofs.Steps
import Scripting.Proofs.Jobs
import Scripting.Proofs.CallDepth
import Scripting.Proofs.CallLimit
import Scripting.Proofs.Provenance
import Scripting.Proofs.Placement
import Scripting.Proofs.Pattern
import Scripting.Proofs.LongestMatch
import Scripting.Proofs.MaximalMunch
import Scripting.Proofs.LineSearch
import Scripting.Proofs.Safety
import Scripting.Proofs.ReferenceCounts
import Scripting.Proofs.Hosting
import Scripting.Proofs.SelfCapture
import Scripting.Proofs.Nesting
import Scripting.Proofs.Names
import Scripting.Proofs.Sites
import Scripting.Proofs.LexicalDepth
import Scripting.Proofs.Relocation
import Scripting.Proofs.Seams
import Scripting.Proofs.Positions
import Scripting.Proofs.Sequencing
import Scripting.Proofs.Composition
import Scripting.Proofs.Reporting
import Scripting.Proofs.Lookahead
import Scripting.Proofs.ViablePrefixes
import Scripting.Proofs.Terminators
import Scripting.Proofs.LineBreaks
import Scripting.Proofs.OpenLines
import Scripting.Proofs.Brackets
import Scripting.Proofs.Tiling
import Scripting.Proofs.Echo
import Scripting.Proofs.Layout
import Scripting.Proofs.LayoutMeaning
import Scripting.Proofs.LayeredGrammar
import Scripting.Proofs.LineGroups
import Scripting.Proofs.Guises
import Scripting.Proofs.GuisedRuns
import Scripting.Proofs.GuisedSessions
import Scripting.Proofs.Reset
import Scripting.Proofs.Renaming
import Scripting.Proofs.Observers
import Scripting.Proofs.Causes
import Scripting.Proofs.LineCounting
import Scripting.Proofs.Relexing
import Scripting.Proofs.FloatBits
import Scripting.Proofs.NumberText
import Scripting.Proofs.Forgetting
import Scripting.Proofs.GlobalScope
import Scripting.Proofs.UnmentionedGlobals
import Scripting.Proofs.Listening
import Scripting.Proofs.StringOrder
import Scripting.Proofs.CommentEnds
import Scripting.Proofs.Headroom
import Scripting.Proofs.Progress
