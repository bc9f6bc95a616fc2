import Reckoner.Expr.Printer
import Reckoner.Log
import Reckoner.Main
import Reckoner.Proofs.DraftRun
import Reckoner.Proofs.Phrase
import Reckoner.Proofs.Reading
import Reckoner.Proofs.Unfinished
import Reckoner.Proofs.Levels
import Reckoner.Proofs.Acceptance
import Reckoner.Proofs.Evaluation
import Reckoner.Proofs.StackDepth
import Reckoner.Proofs.NumberTokens
import Reckoner.Proofs.Safety
import Reckoner.Proofs.Segmentation
import Reckoner.Proofs.Decoding
import Reckoner.Proofs.Rendering
import Reckoner.Proofs.Printing
import Reckoner.Proofs.Completion
import Reckoner.Proofs.Rejection
import Reckoner.Proofs.Calls
import Reckoner.Proofs.Context
import Reckoner.Proofs.Substitution
import Reckoner.Proofs.Doubles
import Reckoner.Proofs.Rounding
import Reckoner.Proofs.Layout
import Reckoner.Proofs.NumberText
import Reckoner.Proofs.Feedback
import Reckoner.Proofs.Spacing
import Reckoner.Proofs.FrontEnds
import Reckoner.Proofs.Faults
import Reckoner.Proofs.Canonical
import Reckoner.Proofs.Listing
import Reckoner.Proofs.Records
import Reckoner.Proofs.Decoration
import Reckoner.Proofs.Descent
import Reckoner.Proofs.DescentRun
import Reckoner.Proofs.Lookahead
import Reckoner.Proofs.Beneath
import Reckoner.Proofs.BlankLines
import Reckoner.Proofs.Answers
import Reckoner.Proofs.Activations
import Reckoner.Proofs.Progress
