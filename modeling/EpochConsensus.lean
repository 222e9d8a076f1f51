import EpochConsensus.Cluster
import EpochConsensus.Config.Document
import EpochConsensus.Epoch.Script
import EpochConsensus.Replica.Run
import EpochConsensus.Scheduler
import EpochConsensus.Telemetry
import EpochConsensus.Proofs.Replica.Discipline
import EpochConsensus.Proofs.System.Locks
import EpochConsensus.Proofs.Replica.Carrying
import EpochConsensus.Proofs.Epoch.Decisions
import EpochConsensus.Proofs.Epoch.Finality
import EpochConsensus.Proofs.Epoch.Buffering
import EpochConsensus.Proofs.Epoch.QuitEpoch
import EpochConsensus.Proofs.Epoch.Transfer
import EpochConsensus.Proofs.Epoch.Requests
import EpochConsensus.Proofs.Replica.Succession
import EpochConsensus.Proofs.Window.Eviction
import EpochConsensus.Proofs.Window.Turns
import EpochConsensus.Proofs.Replica.Deferral
import EpochConsensus.Proofs.Replica.Overdue
import EpochConsensus.Proofs.Replica.Starts
import EpochConsensus.Proofs.Replica.Repeats
import EpochConsensus.Proofs.Replica.Reproposals
import EpochConsensus.Proofs.Replica.Commits
import EpochConsensus.Proofs.Replica.Outgoing
import EpochConsensus.Proofs.Message.Decoding
import EpochConsensus.Proofs.Verifier.Cache
import EpochConsensus.Proofs.Chain.Growth
import EpochConsensus.Proofs.Epoch.Stopping
import EpochConsensus.Proofs.System.Reach
import EpochConsensus.Proofs.Config
import EpochConsensus.Proofs.Scheduler.Order
import EpochConsensus.Proofs.Store.Committing
