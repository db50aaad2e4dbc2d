import Dicebox.Audit
import Dicebox.Console.Command
import Dicebox.Data.Json
import Dicebox.Engine
import Dicebox.Expr.Read
import Dicebox.Expr.Roll
import Dicebox.Expr.Write
import Dicebox.Fairness
import Dicebox.History
import Dicebox.Main
import Dicebox.Proofs.Accounts
import Dicebox.Proofs.Alignment
import Dicebox.Proofs.Allowance
import Dicebox.Proofs.Analysis
import Dicebox.Proofs.Batches
import Dicebox.Proofs.Breakdown
import Dicebox.Proofs.Checks
import Dicebox.Proofs.Commands
import Dicebox.Proofs.Cursor.Outcomes
import Dicebox.Proofs.Draws
import Dicebox.Proofs.Failures
import Dicebox.Proofs.Labels
import Dicebox.Proofs.Logs
import Dicebox.Proofs.Notation.Brackets
import Dicebox.Proofs.Notation.Limits
import Dicebox.Proofs.Notation.WellFormed
import Dicebox.Proofs.Rechecks
import Dicebox.Proofs.Pointers
import Dicebox.Proofs.Records
import Dicebox.Proofs.Replays
import Dicebox.Proofs.Respelling
import Dicebox.Proofs.Scoring
import Dicebox.Proofs.Segmentation
import Dicebox.Proofs.Sessions
import Dicebox.Proofs.Showing
import Dicebox.Proofs.Spans
import Dicebox.Proofs.Stored
import Dicebox.Proofs.Supply
import Dicebox.Proofs.Tally
import Dicebox.Proofs.Tampering
import Dicebox.Proofs.Turns
import Dicebox.Proofs.Uniformity
import Dicebox.Proofs.Untouched
import Dicebox.Proofs.Windows
import Dicebox.Proofs.ZeroDivisors
import Dicebox.Settings
import Dicebox.Source.Kinds
import Dicebox.Stored
import Dicebox.Summary
