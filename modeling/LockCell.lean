import LockCell.Cell.Loopback
import LockCell.Cell.View
import LockCell.CommandLine.Server
import LockCell.Lock.Slot
import LockCell.Log.Disk
import LockCell.Main
import LockCell.Proofs.Lock.ReaderWriter
import LockCell.Proofs.Session.Calls
import LockCell.Proofs.Server.Moves
import LockCell.Proofs.Server.Agreement
import LockCell.Proofs.Server.OneLeader
import LockCell.Proofs.Cell.Servers
import LockCell.Proofs.Cell.Exclusion
import LockCell.Proofs.Cell.Traffic
import LockCell.Proofs.Cell.Programs
import LockCell.Proofs.Cell.Order
import LockCell.Proofs.Cell.Replies
import LockCell.Proofs.Cell.Acts
import LockCell.Proofs.Cell.LeaseSafety
import LockCell.Proofs.Log.Replay
import LockCell.Proofs.Log.Crashes
import LockCell.Proofs.Server.Recovery
import LockCell.Proofs.Session.Watch
import LockCell.Proofs.Session.Rendezvous
import LockCell.Proofs.Server.Bystanders
import LockCell.Proofs.Cell.Retries
import LockCell.Proofs.Lock.WellFormed
import LockCell.Proofs.Cell.WellFormed
import LockCell.Proofs.Server.Deadlines
import LockCell.Proofs.Client.Phases
import LockCell.Proofs.Cell.Claims
import LockCell.Proofs.Client.Belief
import LockCell.Proofs.Cell.Strangers
import LockCell.Proofs.Cell.Served
import LockCell.Proofs.Cell.Takeover
import LockCell.Proofs.Cell.Resumption
import LockCell.Proofs.Cell.Numbers
import LockCell.Proofs.Log.Opening
import LockCell.Proofs.Server.OneSession
import LockCell.Proofs.Cell.Work
import LockCell.Proofs.Cell.Deposed
import LockCell.Proofs.Cell.Orphans
import LockCell.Proofs.Cluster.Copies
import LockCell.Proofs.Server.Refusals
import LockCell.Proofs.Net.Hop
import LockCell.Proofs.Lock.Linking
import LockCell.Proofs.Server.Vouching
import LockCell.Proofs.Client.Attempts
import LockCell.Proofs.Client.Gate
import LockCell.Proofs.Server.Draining
import LockCell.Proofs.Server.Overtaking
import LockCell.Proofs.Server.Bounds
import LockCell.Proofs.Lock.Failures
import LockCell.Proofs.Client.Searching
import LockCell.Proofs.Client.Outstanding
import LockCell.Proofs.Client.Stragglers
import LockCell.Proofs.Lock.Paths
import LockCell.Proofs.Cluster.Redirects
import LockCell.Proofs.Client.Probing
