import PipeLang.Main
import PipeLang.Proofs.Reader.Reads
import PipeLang.Proofs.Reader.Inversion
import PipeLang.Proofs.Syntax.Ordered
import PipeLang.Proofs.Reader.Ordered
import PipeLang.Proofs.Syntax.Nodes
import PipeLang.Proofs.Scope.Nested
import PipeLang.Proofs.Resolve.After
import PipeLang.Proofs.Resolve.Move
import PipeLang.Proofs.Resolve.Spread
import PipeLang.Proofs.Resolve.Tidy
import PipeLang.Proofs.Resolve.Settled
import PipeLang.Proofs.Resolve.Walked
import PipeLang.Proofs.Resolve.Names
import PipeLang.Proofs.Resolve.Declarations
import PipeLang.Proofs.Resolve.Imports
import PipeLang.Proofs.Resolve.Walk
import PipeLang.Proofs.Resolve.Module
import PipeLang.Proofs.Load.Sound
import PipeLang.Proofs.Load.Moves
import PipeLang.Proofs.Load.Loaded
import PipeLang.Proofs.Resolve.Uses
import PipeLang.Proofs.Load.Lookup
import PipeLang.Proofs.Eval.Frames
import PipeLang.Proofs.Eval.Sound
import PipeLang.Proofs.Eval.Keeps
import PipeLang.Proofs.Eval.Steps
import PipeLang.Proofs.Eval.Runs
import PipeLang.Proofs.Eval.Requests
import PipeLang.Proofs.Syntax.Mentions
import PipeLang.Proofs.Resolve.Change
import PipeLang.Proofs.Resolve.Trace
import PipeLang.Proofs.Load.Keeps
import PipeLang.Proofs.Load.Canonical
import PipeLang.Proofs.Load.Exported
import PipeLang.Proofs.Load.Prefix
import PipeLang.Proofs.Eval.Calm
import PipeLang.Proofs.Load.Course
import PipeLang.Proofs.Eval.Order
import PipeLang.Proofs.Eval.Completed
import PipeLang.Proofs.Eval.Initialized
import PipeLang.Proofs.Load.Cache
import PipeLang.Proofs.Scope.Rename
import PipeLang.Proofs.Resolve.Mirror
import PipeLang.Proofs.Resolve.Mirrored
import PipeLang.Proofs.Load.Terminates
import PipeLang.Proofs.Resolve.Requested
import PipeLang.Proofs.Load.Reached
import PipeLang.Proofs.Load.Reloaded
import PipeLang.Proofs.Load.Order
import PipeLang.Proofs.Eval.Alike
import PipeLang.Proofs.Eval.Carries
import PipeLang.Proofs.Load.Opened
import PipeLang.Proofs.Load.Unique
import PipeLang.Proofs.Eval.Binding
import PipeLang.Proofs.Eval.HostCalls
import PipeLang.Proofs.Load.Acyclic
import PipeLang.Proofs.Eval.Dialogue
import PipeLang.Proofs.Load.Lenient
import PipeLang.Proofs.Reader.Places
import PipeLang.Proofs.Load.Spans
import PipeLang.Proofs.Eval.Behalf
import PipeLang.Proofs.Eval.Tiers
import PipeLang.Proofs.Eval.Finished
import PipeLang.Proofs.Load.Linked
import PipeLang.Proofs.Load.Provenance
import PipeLang.Proofs.Load.Presented
import PipeLang.Proofs.Eval.Access
import PipeLang.Proofs.Eval.OperatorStage
import PipeLang.Proofs.Syntax.Pieces
import PipeLang.Proofs.Syntax.Spelled
import PipeLang.Proofs.Reader.Shaped
import PipeLang.Proofs.Resolve.LoopTags
import PipeLang.Proofs.Load.Laid
import PipeLang.Proofs.Eval.Regions
import PipeLang.Proofs.Eval.Written
import PipeLang.Proofs.Eval.Writers
import PipeLang.Proofs.Eval.WriteOnce
import PipeLang.Proofs.Eval.LeftOperand
import PipeLang.Proofs.Eval.Slots
import PipeLang.Proofs.Load.ImportList
import PipeLang.Proofs.Scope.Layers
import PipeLang.Proofs.Eval.Layered
import PipeLang.Proofs.Eval.Iterations
import PipeLang.Proofs.Eval.Evaluated
import PipeLang.Proofs.Eval.Collected
import PipeLang.Proofs.Eval.Issued
import PipeLang.Proofs.Syntax.Demands
import PipeLang.Proofs.Eval.Lockstep
import PipeLang.Proofs.Eval.Twins
import PipeLang.Proofs.Eval.Reach
import PipeLang.Proofs.Eval.Split
import PipeLang.Proofs.Resolve.Joined
import PipeLang.Proofs.Token.Partition
import PipeLang.Proofs.Reader.Progress
import PipeLang.Proofs.Syntax.Occurrences
import PipeLang.Proofs.Resolve.Notes
import PipeLang.Proofs.Resolve.Outcomes
import PipeLang.Proofs.Resolve.Meets
import PipeLang.Proofs.Resolve.Occasions
import PipeLang.Proofs.Resolve.Decided
import PipeLang.Proofs.Load.Decided
import PipeLang.Proofs.Sources.CanonicalPath
import PipeLang.Proofs.Syntax.Shift
import PipeLang.Proofs.Token.Seam
import PipeLang.Proofs.Token.TextLiteral
import PipeLang.Proofs.Reader.Precedence
import PipeLang.Proofs.Reader.Paired
import PipeLang.Proofs.Reader.Moved
import PipeLang.Proofs.Reader.Further
import PipeLang.Proofs.Reader.Concat
import PipeLang.Proofs.Syntax.Demanded
import PipeLang.Proofs.Resolve.Guided
import PipeLang.Proofs.Load.Served
import PipeLang.Proofs.Eval.Rehearsal
import PipeLang.Proofs.Eval.Ahead
import PipeLang.Proofs.Eval.Detour
import PipeLang.Proofs.Eval.Rehearsed
import PipeLang.Proofs.Eval.Recalled
import PipeLang.Proofs.Eval.Afresh
import PipeLang.Proofs.Sources.OtherProjects
import PipeLang.Proofs.Eval.Literals
import PipeLang.Proofs.Files.Following
import PipeLang.Proofs.Project.Search
import PipeLang.Proofs.Load.Texts
import PipeLang.Proofs.Command.NamedFile
import PipeLang.Proofs.Entry.Argument
import PipeLang.Proofs.Reader.Located
import PipeLang.Proofs.Resolve.Located
import PipeLang.Proofs.Load.Located
import PipeLang.Proofs.Eval.Range
import PipeLang.Proofs.Reader.Enclosed
