import Relocation.Main
import Relocation.Proofs.Checked.Relocated
import Relocation.Proofs.EarlyEnd
import Relocation.Proofs.Intact
import Relocation.Proofs.OnePass
import Relocation.Proofs.Overwritten
import Relocation.Proofs.Uncovered
import Relocation.Proofs.DryRun
import Relocation.Proofs.Clauses
import Relocation.Proofs.Descent
import Relocation.Proofs.Checked.Braces
import Relocation.Proofs.Text.Joins
import Relocation.Proofs.LeadingOn
import Relocation.Proofs.Walks
import Relocation.Proofs.Matching
import Relocation.Proofs.WalkBases
import Relocation.Proofs.Filtered
import Relocation.Proofs.Unions
import Relocation.Proofs.LeftOut
import Relocation.Proofs.Checked.Lexicon
import Relocation.Proofs.Lines
import Relocation.Proofs.BareNames
import Relocation.Proofs.Dependencies
