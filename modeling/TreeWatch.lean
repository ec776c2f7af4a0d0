import TreeWatch.Main
import TreeWatch.Proofs.FileTree.Resolution
import TreeWatch.Proofs.WatchTable.Entries
import TreeWatch.Proofs.Tracker.Alarms
import TreeWatch.Proofs.Tracker.Rebuild
import TreeWatch.Proofs.Tracker.Moving
import TreeWatch.Proofs.Tracker.Convergence
import TreeWatch.Proofs.Tracker.Failures
import TreeWatch.Proofs.Tracker.Sharing
import TreeWatch.Proofs.Tracker.Monitoring
import TreeWatch.Proofs.Tracker.Retirements
import TreeWatch.Proofs.Tracker.Pairing
import TreeWatch.Proofs.Tracker.Draining
import TreeWatch.Proofs.WatchTable.Growth
import TreeWatch.Proofs.WatchTable.Slots
import TreeWatch.Proofs.Source.Histories
import TreeWatch.Proofs.Tracker.Asking
import TreeWatch.Proofs.Session.Turns
import TreeWatch.Proofs.Session.Outcomes
import TreeWatch.Proofs.Session.Schedules
import TreeWatch.Proofs.Source.Directions
import TreeWatch.Proofs.Tracker.Containment
import TreeWatch.Proofs.FileTree.Survey
import TreeWatch.Proofs.Tracker.Covering
import TreeWatch.Proofs.Tracker.Arrangement
import TreeWatch.Proofs.Tracker.Binding
import TreeWatch.Proofs.Tracker.Arrivals
import TreeWatch.Proofs.Tracker.Links
import TreeWatch.Proofs.Tracker.Landing
import TreeWatch.Proofs.Path.Remainder
import TreeWatch.Proofs.WatchTable.Relocation
import TreeWatch.Proofs.Tracker.Subtrees
import TreeWatch.Proofs.Tracker.Carrying
import TreeWatch.Departures.Book
import TreeWatch.Proofs.Departures.Numbering
import TreeWatch.Proofs.Roots.Validation
import TreeWatch.Proofs.Tracker.Repetition
import TreeWatch.Proofs.WatchTable.Duplicates
import TreeWatch.Proofs.FileTree.Leading
import TreeWatch.Proofs.Tracker.Auditing
import TreeWatch.Proofs.Tracker.Healing
import TreeWatch.Proofs.Control.Grammar
import TreeWatch.Proofs.Control.Intake
import TreeWatch.Proofs.CommandLine.Layers
import TreeWatch.Proofs.Log.Masks
import TreeWatch.Proofs.WatchTable.Listings
import TreeWatch.Proofs.WatchTable.SharedPaths
