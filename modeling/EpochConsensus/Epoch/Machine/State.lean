import EpochConsensus.Epoch.Policy
import EpochConsensus.Epoch.Proposals
import EpochConsensus.Epoch.Votes
import EpochConsensus.Timeout

/-! # The state of an epoch

A `Machine` is one epoch of consensus at one process: its phase, the certificates it was started
with and those it holds, and the proposals, votes and blame received.
-/
namespace EpochConsensus

/-- How far an epoch has come. -/
inductive Phase where
  /-- Not started; messages wait. -/
  | inactive
  /-- Waits for a proposal or a certificate. -/
  | ready
  /-- Holds a block certificate of this epoch. -/
  | locked
  /-- Saw a silent or an equivocating proposer. -/
  | epochChange
  /-- Has decided and waits for the block and its ancestors. -/
  | commit
  | finished
deriving DecidableEq

/-- The phase after the proposer was seen to sign two blocks. -/
def Phase.exposed : Phase → Phase
  | ready => epochChange
  | locked => finished
  | phase => phase

/-- How the request for one kind of timeout stands. -/
inductive Timer where
  /-- Not requested, or already delivered. -/
  | idle
  | accepted
  /-- Refused; requested again with the next message. -/
  | refused
deriving DecidableEq

/-- One timer for each kind of timeout. -/
structure Timers where
  propose : Timer
  equivocation : Timer
  quitEpoch : Timer
  epochChange : Timer
deriving DecidableEq

namespace Timers

def idle : Timers := ⟨.idle, .idle, .idle, .idle⟩

def get (t : Timers) : TimeoutKind → Timer
  | .propose => t.propose
  | .equivocation => t.equivocation
  | .quitEpoch => t.quitEpoch
  | .epochChange => t.epochChange

def set (t : Timers) (timer : Timer) : TimeoutKind → Timers
  | .propose => { t with propose := timer }
  | .equivocation => { t with equivocation := timer }
  | .quitEpoch => { t with quitEpoch := timer }
  | .epochChange => { t with epochChange := timer }

theorem get_set (t : Timers) (timer : Timer) (k l : TimeoutKind) :
    (t.set timer k).get l = if l = k then timer else t.get l := by
  cases k <;> cases l <;> rfl

/-- The timer after its timeout was delivered; a refused request stays refused. -/
def expire (t : Timers) (k : TimeoutKind) : Timers :=
  if t.get k = .accepted then t.set .idle k else t

end Timers

/-- The certificates carried from one epoch into the next: the highest known one and the lock. -/
structure Carried where
  valid : Option Certificate
  locked : Option Certificate
deriving DecidableEq

/-- One epoch at one process. -/
structure Machine where
  epoch : Epoch
  policy : Policy
  /-- How many messages wait at most for the start. -/
  pendingLimit : Nat
  phase : Phase
  pending : List Message
  /-- The highest block certificate known, for the next proposal. -/
  valid : Option Certificate
  /-- The certificate that this process is locked on. -/
  locked : Option Certificate
  /-- The lock that the epoch was started with. -/
  initialLocked : Option Certificate
  proposals : Proposals
  votes : Votes
  blame : Certificate
  hasVoted : Bool
  equivocation : Bool
  decision : Option BlockKey
  timers : Timers
deriving DecidableEq

namespace Machine

/-- An epoch before its start. -/
def create (epoch : Epoch) (policy : Policy) (pendingLimit : Nat) : Machine where
  epoch
  policy
  pendingLimit
  phase := .inactive
  pending := []
  valid := none
  locked := none
  initialLocked := none
  proposals := .empty
  votes := .empty
  blame := .silence epoch
  hasVoted := false
  equivocation := false
  decision := none
  timers := .idle

/-- The epoch as it starts, with the certificates of the epochs before. -/
def opened (m : Machine) (valid locked : Option Certificate) : Machine :=
  { m with valid, locked, initialLocked := locked, phase := .ready }

/-- Records a proposal, if it is of this epoch. -/
def enlist (m : Machine) (proposal : Proposal) : Machine :=
  if proposal.epoch = m.epoch then { m with proposals := m.proposals.add proposal } else m

/-- The proposer's votes that an honest process passes on as evidence. -/
def evidence (m : Machine) (proposer : ProcessId) : List Ballot :=
  if m.policy.isHonest then (m.votes.signedBy proposer).filterMap (·.ballot? proposer) else []

def started (m : Machine) : Bool := m.phase ≠ .inactive

def finished (m : Machine) : Bool := m.phase = .finished

end Machine

end EpochConsensus
