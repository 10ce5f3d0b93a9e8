import Stepwise.Main
import Stepwise.Proofs.Applicability
import Stepwise.Proofs.Commuting
import Stepwise.Proofs.Custody.Runs
import Stepwise.Proofs.Errors
import Stepwise.Proofs.Reports
import Stepwise.Proofs.Structured.Runs
import Stepwise.Proofs.Announcing
import Stepwise.Proofs.Unfolding
import Stepwise.Proofs.Stranding
import Stepwise.Proofs.Countdowns
import Stepwise.Proofs.Countdowns.Routes
import Stepwise.Proofs.Countdowns.Landing
import Stepwise.Proofs.Countdowns.Delivery
import Stepwise.Proofs.Countdowns.Sessions
import Stepwise.Proofs.Discipline
import Stepwise.Proofs.Countdowns.Boards
import Stepwise.Proofs.Countdowns.Attending
import Stepwise.Proofs.Countdowns.Minding
import Stepwise.Proofs.Countdowns.Minding.Delivery
import Stepwise.Proofs.Countdowns.Minding.Sessions
import Stepwise.Proofs.Branches
import Stepwise.Proofs.Branches.Runs
import Stepwise.Proofs.Releasing
import Stepwise.Proofs.Releasing.Runs
import Stepwise.Proofs.Rounds
import Stepwise.Proofs.Looping.Reminders
import Stepwise.Proofs.Pausing.Refusals
import Stepwise.Proofs.Repetition
import Stepwise.Proofs.Countdowns.Skipping
import Stepwise.Proofs.Previews.Runs
import Stepwise.Proofs.Faults
import Stepwise.Proofs.Grammar
import Stepwise.Proofs.Pausing.Counting
import Stepwise.Proofs.Saving
import Stepwise.Proofs.Visits
import Stepwise.Proofs.Making.Runs
import Stepwise.Proofs.Needed.Runs
import Stepwise.Proofs.Looping.Announced
import Stepwise.Proofs.Scanning
