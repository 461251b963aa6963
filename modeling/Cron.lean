import Cron.Main
import Cron.Proofs.Registration
import Cron.Proofs.Dispatch
import Cron.Proofs.Agenda
import Cron.Proofs.CatchUp
import Cron.Proofs.Bookkeeping
import Cron.Proofs.FieldGrammar
import Cron.Proofs.PatternGrammar
import Cron.Proofs.Removal
import Cron.Proofs.Stopping
import Cron.Proofs.Restart
import Cron.Proofs.ListingOrder
import Cron.Proofs.Lifecycle
import Cron.Proofs.DeadLoop
import Cron.Proofs.Survival
import Cron.Proofs.IdleListing
import Cron.Proofs.Enumeration
import Cron.Proofs.FieldExpansion
import Cron.Proofs.PatternLayout
import Cron.Proofs.FiringPass
import Cron.Proofs.LongerHorizon
import Cron.Proofs.SetPattern
import Cron.Proofs.Parking
import Cron.Proofs.JumpedOver
import Cron.Proofs.Rescheduling
import Cron.Proofs.StartUpReport
import Cron.Proofs.PrintedLines
import Cron.Proofs.Layering
import Cron.Proofs.CarrySearch
import Cron.Proofs.ValueSetHistory
