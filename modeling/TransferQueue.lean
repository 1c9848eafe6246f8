import TransferQueue.Hub
import TransferQueue.Proofs.Accord
import TransferQueue.Proofs.Blocks
import TransferQueue.Proofs.Bookkeeping
import TransferQueue.Proofs.Bounds
import TransferQueue.Proofs.Calendar
import TransferQueue.Proofs.Course
import TransferQueue.Proofs.Dismissing
import TransferQueue.Proofs.Encounters
import TransferQueue.Proofs.Erasing
import TransferQueue.Proofs.Failures
import TransferQueue.Proofs.Gathering
import TransferQueue.Proofs.Interleaving
import TransferQueue.Proofs.Isolation
import TransferQueue.Proofs.Lateness
import TransferQueue.Proofs.Lifetime
import TransferQueue.Proofs.Loading
import TransferQueue.Proofs.Messages
import TransferQueue.Proofs.Mirror
import TransferQueue.Proofs.Offers
import TransferQueue.Proofs.Order
import TransferQueue.Proofs.Overflows
import TransferQueue.Proofs.Pacing
import TransferQueue.Proofs.Pausing
import TransferQueue.Proofs.Picking
import TransferQueue.Proofs.Placement
import TransferQueue.Proofs.Planning
import TransferQueue.Proofs.Presence
import TransferQueue.Proofs.Replay
import TransferQueue.Proofs.Resettling
import TransferQueue.Proofs.Restart
import TransferQueue.Proofs.Rewinding
import TransferQueue.Proofs.RoundTrip
import TransferQueue.Proofs.Runs
import TransferQueue.Proofs.Scan
import TransferQueue.Proofs.Searches
import TransferQueue.Proofs.Step
import TransferQueue.Proofs.Structures
import TransferQueue.Proofs.Tables.Retained
import TransferQueue.Proofs.Timestamps
import TransferQueue.Proofs.Walks
import TransferQueue.Wire.Change
import TransferQueue.Wire.Entry
import TransferQueue.Wire.Report
