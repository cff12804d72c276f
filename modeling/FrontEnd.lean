import FrontEnd.Bytes.Cursor
import FrontEnd.Main
import FrontEnd.Proofs.Routine
import FrontEnd.Proofs.Routine.Rules
import FrontEnd.Proofs.FailFast
import FrontEnd.Proofs.Decoding
import FrontEnd.Proofs.Lockstep
import FrontEnd.Proofs.Delivery
import FrontEnd.Proofs.Refill
import FrontEnd.Proofs.Refinement
import FrontEnd.Proofs.Progress
import FrontEnd.Proofs.Grammar.Calm
import FrontEnd.Proofs.Grammar.Spelled.Expr
import FrontEnd.Proofs.Grammar.Spelled.Stmt
import FrontEnd.Proofs.Grammar.Spelled.File
import FrontEnd.Proofs.Grammar.Takes
import FrontEnd.Proofs.Grammar.Taken.Expr
import FrontEnd.Proofs.Grammar.Taken.Stmt
import FrontEnd.Proofs.Grammar.Taken.File
import FrontEnd.Proofs.Grammar.Derived.Trees
import FrontEnd.Proofs.Grammar.Derived.Words
import FrontEnd.Proofs.Grammar.Acceptance
import FrontEnd.Proofs.Termination.Reach
import FrontEnd.Proofs.Termination.Alike
import FrontEnd.Proofs.Termination.Call
import FrontEnd.Proofs.Termination.Expr
import FrontEnd.Proofs.Termination.Stmt
import FrontEnd.Proofs.Termination.File
import FrontEnd.Proofs.Termination.Budget
import FrontEnd.Proofs.Lexemes
import FrontEnd.Proofs.Places.Offset
import FrontEnd.Proofs.Places.Stream
import FrontEnd.Proofs.Places.Tokens
import FrontEnd.Proofs.Places.Counters
import FrontEnd.Proofs.Places.Yielded
import FrontEnd.Proofs.Whole.Stream
import FrontEnd.Proofs.Whole.Scans
import FrontEnd.Proofs.Whole.Accepted
import FrontEnd.Proofs.Trees.Groups
import FrontEnd.Proofs.Trees.Nodes
import FrontEnd.Proofs.Trees.Sound
import FrontEnd.Proofs.Trees.Built
import FrontEnd.Proofs.Trees.Expr
import FrontEnd.Proofs.Trees.Stmt
import FrontEnd.Proofs.Trees.File
import FrontEnd.Proofs.Whole.Names
import FrontEnd.Proofs.Whole.Relayed
import FrontEnd.Proofs.Words.Literal
import FrontEnd.Proofs.Words.Coming
import FrontEnd.Proofs.Words.Word
import FrontEnd.Proofs.Words.Clean
import FrontEnd.Proofs.Trees.Complete
import FrontEnd.Proofs.Trees.Returned
import FrontEnd.Proofs.Gaps.Breaks
import FrontEnd.Proofs.Gaps.Noticed
import FrontEnd.Proofs.Gaps.Items
import FrontEnd.Proofs.Gaps.Stretch
import FrontEnd.Proofs.Gaps.Comments
import FrontEnd.Proofs.Gaps.Passing
import FrontEnd.Proofs.Gaps.Finding
import FrontEnd.Proofs.Gaps.Taking
import FrontEnd.Proofs.Gaps.Calls
import FrontEnd.Proofs.Gaps.Separators
import FrontEnd.Proofs.Gaps.Division
import FrontEnd.Proofs.Gaps.Undecodable
import FrontEnd.Proofs.Bases.Points
import FrontEnd.Proofs.Bases.Rules
import FrontEnd.Proofs.Bases.Hearing
import FrontEnd.Proofs.Bases.Queue
import FrontEnd.Proofs.Bases.Governed
import FrontEnd.Proofs.Words.Spelled
import FrontEnd.Proofs.Failing.Twin
import FrontEnd.Proofs.Failing.Once
import FrontEnd.Proofs.Failing.Scans
import FrontEnd.Proofs.Whole.Log
import FrontEnd.Proofs.Whole.Order
import FrontEnd.Proofs.Tracing
import FrontEnd.Proofs.Grammar.Likeness
import FrontEnd.Proofs.Grammar.Recovery
import FrontEnd.Proofs.Endings.Agreement
import FrontEnd.Proofs.Endings.Files
import FrontEnd.Proofs.Order.Decls
import FrontEnd.Proofs.Order.File
import FrontEnd.Proofs.Order.Streams
import FrontEnd.Proofs.Commands
import FrontEnd.Proofs.Bases.Blind
import FrontEnd.Proofs.Bases.Blindness
import FrontEnd.Proofs.Unmarked
import FrontEnd.Proofs.Reworded.Alike
import FrontEnd.Proofs.Reworded.Upto
import FrontEnd.Proofs.Reworded.Behind
import FrontEnd.Proofs.Reworded.Comment
import FrontEnd.Proofs.Reworded.Scans
import FrontEnd.Proofs.Bases.Noninterference
import FrontEnd.Proofs.Words.Row
import FrontEnd.Proofs.Printed.Prints
import FrontEnd.Proofs.Printed.Reread
import FrontEnd.Proofs.Printed.Expr
import FrontEnd.Proofs.Printed.Declared
import FrontEnd.Proofs.Climbing.Forms
import FrontEnd.Proofs.Climbing.Chain
import FrontEnd.Proofs.Texts.Judged
import FrontEnd.Proofs.Directives.Effect
import FrontEnd.Proofs.Directives.Written
import FrontEnd.Proofs.Directives.Displayed
import FrontEnd.Proofs.Comments.Delimited
import FrontEnd.Proofs.Comments.Forwarded
import FrontEnd.Proofs.Directives.Verdict
import FrontEnd.Proofs.Directives.Sliced
import FrontEnd.Proofs.Directives.Validated
import FrontEnd.Proofs.Memory.Checked
import FrontEnd.Proofs.Memory.Intact
import FrontEnd.Proofs.Memory.Operations
import FrontEnd.Proofs.Carried
