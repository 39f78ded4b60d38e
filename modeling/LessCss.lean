import LessCss.Node.Dump
import LessCss.Node.Reprint
import LessCss.Node.Traversal
import LessCss.Parser
import LessCss.Parser.Plain
import LessCss.Proofs.Agreement
import LessCss.Proofs.Arguments
import LessCss.Proofs.Balance
import LessCss.Proofs.Blocks
import LessCss.Proofs.Brackets
import LessCss.Proofs.Build
import LessCss.Proofs.Build.Spacing
import LessCss.Proofs.Build.Terms
import LessCss.Proofs.Build.Values
import LessCss.Proofs.Cap
import LessCss.Proofs.Cap.Levels
import LessCss.Proofs.Checked.Faults
import LessCss.Proofs.Checked.Termination
import LessCss.Proofs.Closers
import LessCss.Proofs.Combinators
import LessCss.Proofs.Contract
import LessCss.Proofs.Failure
import LessCss.Proofs.Fragments
import LessCss.Proofs.Garbage
import LessCss.Proofs.Gluing
import LessCss.Proofs.Keywords
import LessCss.Proofs.Lexing
import LessCss.Proofs.Lexing.Classes
import LessCss.Proofs.Lexing.Longest
import LessCss.Proofs.Lexing.SinglePass
import LessCss.Proofs.LineBreaks
import LessCss.Proofs.Listing
import LessCss.Proofs.Lossless
import LessCss.Proofs.Memory
import LessCss.Proofs.Names
import LessCss.Proofs.Order
import LessCss.Proofs.Order.Selectors
import LessCss.Proofs.Order.Statements
import LessCss.Proofs.Order.Terms
import LessCss.Proofs.Pieces
import LessCss.Proofs.Quoting
import LessCss.Proofs.Run
import LessCss.Proofs.Schema.Statements
import LessCss.Proofs.SpacingRuns
import LessCss.Proofs.Spans
import LessCss.Proofs.Tail
import LessCss.Proofs.Tail.Nodes
import LessCss.Proofs.Tail.Trees
import LessCss.Proofs.Transparency
import LessCss.Proofs.Traversal
import LessCss.Proofs.Variables
