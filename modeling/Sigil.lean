import Sigil.Grammar
import Sigil.Grammar.Flat
import Sigil.Grammar.Words
import Sigil.Grammar.Descent
import Sigil.Grammar.Descent.Tree
import Sigil.Grammar.Descent.Pattern
import Sigil.Grammar.Descent.Read
import Sigil.Grammar.Descent.Build
import Sigil.Main
import Sigil.Batch.Told
import Sigil.Cli.Listing
import Sigil.Pattern
import Sigil.Pattern.Fault
import Sigil.Text.Visible
import Sigil.Pattern.Form
import Sigil.Pattern.Meaning
import Sigil.Pattern.Escape
import Sigil.Pattern.Brackets
import Sigil.Pattern.Groups
import Sigil.Doc.Json.Grammar
import Sigil.Doc.Json.Read
import Sigil.Proofs.Precedence
import Sigil.Proofs.Moves
import Sigil.Proofs.Recognition
import Sigil.Proofs.Progress
import Sigil.Proofs.Sentences
import Sigil.Proofs.Climbing
import Sigil.Proofs.Limits
import Sigil.Proofs.Collecting
import Sigil.Proofs.Language
import Sigil.Proofs.Spelling
import Sigil.Proofs.Seams
import Sigil.Proofs.Segmentation
import Sigil.Proofs.Places
import Sigil.Proofs.Placement
import Sigil.Proofs.Spacing
import Sigil.Proofs.Trimming
import Sigil.Proofs.Commands
import Sigil.Proofs.Listings
import Sigil.Proofs.Batches
import Sigil.Proofs.Completion
import Sigil.Proofs.Descent.Book
import Sigil.Proofs.Descent.Arguments
import Sigil.Proofs.Descent.Operands
import Sigil.Proofs.Descent.Trees
import Sigil.Proofs.Descent.Folding
import Sigil.Proofs.Descent.Building
import Sigil.Proofs.Descent.Acceptance
import Sigil.Proofs.Descent.Words
import Sigil.Proofs.Descent.Tokens
import Sigil.Proofs.Descent.Standing
import Sigil.Proofs.Descent.Agreement
import Sigil.Proofs.Parsing
import Sigil.Proofs.Expectations
import Sigil.Proofs.Lacking
import Sigil.Proofs.Nesting
import Sigil.Proofs.Printing
import Sigil.Proofs.Image
import Sigil.Proofs.RoundTrip
import Sigil.Proofs.Json.Reading
import Sigil.Proofs.Json.Writing
import Sigil.Proofs.Json.Encoding
import Sigil.Proofs.Yaml.Quoting
import Sigil.Proofs.Yaml.Scalars
import Sigil.Proofs.Yaml.Lines
import Sigil.Proofs.Yaml.Trimmed
import Sigil.Proofs.Traces
import Sigil.Proofs.Excess
import Sigil.Proofs.Sameness
import Sigil.Proofs.Unreadable
import Sigil.Proofs.Symbols
import Sigil.Proofs.Accounts
import Sigil.Proofs.Records
import Sigil.Proofs.Refusals
