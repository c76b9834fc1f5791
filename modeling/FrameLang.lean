import FrameLang.Utf8
import FrameLang.Token
import FrameLang.Token.Listing
import FrameLang.Operator
import FrameLang.Fault
import FrameLang.Cursor
import FrameLang.Diagnostic
import FrameLang.Locals
import FrameLang.Registration
import FrameLang.Node
import FrameLang.Node.Outline
import FrameLang.Parser.State
import FrameLang.Parser
import FrameLang.Compilation
import FrameLang.CommandLine.Arguments
import FrameLang.CommandLine.Loading
import FrameLang.CommandLine.FileTree
import FrameLang.CommandLine.Response
import FrameLang.Main
import FrameLang.Proofs.Machine
import FrameLang.Proofs.Names
import FrameLang.Proofs.Calls
import FrameLang.Proofs.Grammar
import FrameLang.Proofs.Grammar.Completeness
import FrameLang.Proofs.Grammar.Soundness
import FrameLang.Proofs.Grammar.Acceptance
import FrameLang.Proofs.FirstError
import FrameLang.Proofs.Nesting
import FrameLang.Proofs.Bytes
import FrameLang.Proofs.Lexeme
import FrameLang.Proofs.Boundary
import FrameLang.Proofs.Segmentation
import FrameLang.Proofs.Shift
import FrameLang.Proofs.Tables
import FrameLang.Proofs.Writing
import FrameLang.Proofs.Registering
import FrameLang.Proofs.Renaming
import FrameLang.Proofs.Rewriting
import FrameLang.Proofs.Concatenation
import FrameLang.Proofs.Faults
import FrameLang.Proofs.Offsets
import FrameLang.Proofs.Stepping
import FrameLang.Proofs.Layout
import FrameLang.Proofs.Report
import FrameLang.Proofs.ErrorPlaces
import FrameLang.Proofs.Answers
import FrameLang.Proofs.Gluing
import FrameLang.Proofs.Allocation
import FrameLang.Proofs.Descent
import FrameLang.Proofs.Descent.Agreement
import FrameLang.Proofs.Sessions
import FrameLang.Proofs.Resuming
import FrameLang.Proofs.Legible
import FrameLang.Proofs.Rendering
import FrameLang.Proofs.Outlines
import FrameLang.Proofs.Descent.Declarations
import FrameLang.Proofs.Leftovers
import FrameLang.Proofs.Listings
import FrameLang.Proofs.Resolution
import FrameLang.Proofs.Grammar.Depth
import FrameLang.Proofs.Conservation
import FrameLang.Proofs.Mirroring
import FrameLang.Proofs.Locating
import FrameLang.Proofs.Insertions
import FrameLang.Proofs.Arguments
import FrameLang.Proofs.Options
import FrameLang.Proofs.Files
import FrameLang.Proofs.Words
import FrameLang.Proofs.Descent.Budget
import FrameLang.Proofs.Literals
