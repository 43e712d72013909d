import Abacus.Calculation.Fields
import Abacus.Expr.Shape
import Abacus.Main
import Abacus.Proofs.Calculation
import Abacus.Proofs.Command.Agreement
import Abacus.Proofs.Expr.Depth
import Abacus.Proofs.Expr.Drafts
import Abacus.Proofs.Expr.Readable
import Abacus.Proofs.Expr.Rendering
import Abacus.Proofs.Expr.RoundTrip
import Abacus.Proofs.Expr.Shown
import Abacus.Proofs.Expr.Walk
import Abacus.Proofs.Failure.Report
import Abacus.Proofs.Grammar.Behind
import Abacus.Proofs.Grammar.Extension
import Abacus.Proofs.Grammar.Limit
import Abacus.Proofs.Grammar.Lookahead
import Abacus.Proofs.Grammar.Looking
import Abacus.Proofs.Grammar.Obstacle
import Abacus.Proofs.Grammar.Prefix
import Abacus.Proofs.Grammar.Progress
import Abacus.Proofs.Grammar.Script
import Abacus.Proofs.Grammar.Spacing
import Abacus.Proofs.Numeral.Lookahead
import Abacus.Proofs.Numeral.Written
import Abacus.Proofs.Settings.Change
import Abacus.Proofs.Settings.Entries
import Abacus.Proofs.Settings.Load
import Abacus.Proofs.Toml.Rest
import Abacus.Proofs.Value.Failure
import Abacus.Proofs.Value.Simulation
