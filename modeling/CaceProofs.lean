import CaceProofs.Library.LamportClock
import CaceProofs.Library.Runs
import CaceProofs.Library.AssocList
import CaceProofs.Source.Types
import CaceProofs.Source.ConsensusVariable
import CaceProofs.Library.EraseLoop
import CaceProofs.Source.State
import CaceProofs.Source.VariableUpdate
import CaceProofs.Source.Communication
import CaceProofs.Source.Jobs
import CaceProofs.Source.Handlers
import CaceProofs.Source.CaceSpace
import CaceProofs.Source.CaceMutex
import CaceProofs.Source.Agent
import CaceProofs.Source.System
import CaceProofs.Source.Election
import CaceProofs.Guarantees.ElectionAgreement
import CaceProofs.Guarantees.Effects
import CaceProofs.Guarantees.JobEffects
import CaceProofs.Guarantees.EventEffects
import CaceProofs.Guarantees.Acceptance
import CaceProofs.Guarantees.StoreWellFormed
import CaceProofs.Guarantees.ClockDominance
import CaceProofs.Guarantees.LocalRuns
import CaceProofs.Guarantees.StrictStamps
import CaceProofs.Guarantees.SingleWriter
import CaceProofs.Guarantees.PlainAgents
import CaceProofs.Guarantees.ConflictResolution
import CaceProofs.Library.BeliefHistory
import CaceProofs.Library.BeliefExchange
import CaceProofs.Guarantees.OwnBelief
import CaceProofs.Library.Freshest
import CaceProofs.Guarantees.FreshestRecord
import CaceProofs.Guarantees.Redelivery
import CaceProofs.Guarantees.Retransmission
import CaceProofs.Guarantees.StoreView
import CaceProofs.Guarantees.Absorption
import CaceProofs.Guarantees.DeferredUpdates
import CaceProofs.Guarantees.Provenance
import CaceProofs.Guarantees.WriteHandshake
import CaceProofs.Guarantees.ShortAckRouting
import CaceProofs.Guarantees.CommandDelivery
import CaceProofs.Guarantees.ElectionBids
import CaceProofs.Guarantees.RepeatedWrites
import CaceProofs.Guarantees.ThreeWayHandshake
import CaceProofs.Guarantees.SingleCommand
import CaceProofs.Library.Contest
import CaceProofs.Guarantees.AcceptedBelief
import CaceProofs.Guarantees.RetryBudget
import CaceProofs.Guarantees.QuietAgent
import CaceProofs.Guarantees.LosslessNotification
import CaceProofs.Source.ModeSwitch
import CaceProofs.Guarantees.ModeSwitches
import CaceProofs.Guarantees.HandshakeDepth
import CaceProofs.Guarantees.TypedValues
import CaceProofs.Guarantees.MostRecent
import CaceProofs.Guarantees.AcknowledgeQueues
import CaceProofs.Guarantees.Responses
import CaceProofs.Guarantees.Agreed
import CaceProofs.Guarantees.ElectionWinner
import CaceProofs.Source.MutexPolling
import CaceProofs.Guarantees.MutexOwner
import CaceProofs.Library.Path
import CaceProofs.Guarantees.BeliefUpdates
import CaceProofs.Library.ListIterator
import CaceProofs.Source.AckQueue
import CaceProofs.Guarantees.Expiry
import CaceProofs.Library.Codec
import CaceProofs.Source.Serialize
import CaceProofs.Source.Accessors
import CaceProofs.Guarantees.RoundTrip
import CaceProofs.Guarantees.ResendTime
import CaceProofs.Guarantees.TimeWindows
import CaceProofs.Guarantees.ConfirmedRobots
import CaceProofs.Guarantees.FailedJobs
import CaceProofs.Guarantees.ValueFlag
import CaceProofs.Guarantees.ReadBounds
import CaceProofs.Guarantees.AgreementAtRest
import CaceProofs.Library.CrossedVotes
import CaceProofs.Guarantees.Contenders
import CaceProofs.Guarantees.MutualExclusion
import CaceProofs.Guarantees.Electors
import CaceProofs.Guarantees.ElectionAtRest
import CaceProofs.Library.Ballots
import CaceProofs.Source.Paxos.Acceptor
import CaceProofs.Source.Paxos.System
import CaceProofs.Guarantees.Paxos.Votes
import CaceProofs.Guarantees.Paxos.Acceptors
import CaceProofs.Guarantees.Paxos.Proposals
import CaceProofs.Guarantees.Paxos.Learners
import CaceProofs.Guarantees.Paxos.Agreement
import CaceProofs.Guarantees.Paxos.Logs
import CaceProofs.Guarantees.Paxos.Ledger
import CaceProofs.Guarantees.Paxos.Values
import CaceProofs.Guarantees.Paxos.Queues
import CaceProofs.Guarantees.Paxos.Slots
import CaceProofs.Guarantees.Paxos.Holes
import CaceProofs.Guarantees.Paxos.Once
