import EpochConsensus.Epoch.Machine.Voting

/-! # Proposals

Which proposals an epoch accepts and votes for, and what it proposes itself.  A process votes once,
for the only proposal it has seen, if its certificate ranks at least as high as the lock that the
epoch was started with and its block extends the committed chain.
-/
namespace EpochConsensus.Host

variable {σ : Type} (p : Host σ)

/-! ### Received proposals -/

/-- Whether the predecessor of the block is justified: by a quorum of an earlier epoch for it, or
by none for a first block. -/
def isJustified (proposal : Proposal) : Except Fault Bool :=
  match proposal.certificate with
  | none => .ok (proposal.block.height == 0)
  | some c =>
    match c.blockId? with
    | none => .ok false
    | some id =>
      if c.hasQuorum p.count && c.epoch < proposal.epoch && proposal.block.parent == some id then do
        return proposal.block.height == (← successor c.height)
      else .ok false

/-- Whether a proposal is justified and comes from its epoch's proposer. -/
def isValid (proposal : Proposal) : Except Fault Bool := do
  let proposer ← p.proposer proposal.epoch
  let justified ← p.isJustified proposal
  return proposal.sender == proposer && justified

/-- This process's vote for a proposal, not yet signed.  It carries the proposer's signature. -/
def ownVote (epoch : Epoch) (proposal : Proposal) : Vote :=
  { proposal.vote with epoch, sender := p.id, signature := .empty }

/-- Passes on the vote that a proposal amounts to, and votes. -/
def cast (proposal : Proposal) (s : Step σ) : Step σ :=
  let s := (s.emit (.forward (.vote proposal.vote))).emit
    (.broadcast (.vote (p.ownVote s.machine.epoch proposal)))
  { s with machine.hasVoted := true }

/-- Passes on a proposal and the vote that it amounts to, and votes for it. -/
def voteFor (proposal : Proposal) (s : Step σ) : Except Fault (Step σ) := do
  let relayed := { proposal with relay := p.id }
  return p.cast proposal (← p.onVote proposal.vote (s.emit (.forward (.propose relayed))))

/-- Votes as an honest process does. -/
def tryToVote (s : Step σ) : Except Fault (Step σ) := do
  if s.machine.hasVoted then return s
  if (← p.proposer s.machine.epoch) = p.id || s.machine.phase ≠ .ready then return s
  match s.machine.proposals.single? with
  | none => return s
  | some proposal =>
    if Certificate.ranksAtLeast proposal.certificate s.machine.initialLocked &&
        p.extendsChain proposal.block s.world then
      p.voteFor proposal s
    else return s

/-- Votes for whatever is proposed, and follows its certificate. -/
def voteAnyway (proposal : Proposal) (s : Step σ) : Except Fault (Step σ) := do
  let s ← p.voteFor proposal s
  if Certificate.ranksAtLeast proposal.certificate s.machine.locked then
    return { s with machine.locked := proposal.certificate }
  else return s

/-- Stores the block of a new valid proposal, votes, and hands on a block that waited for this
one. -/
def onProposal (proposal : Proposal) (s : Step σ) : Except Fault (Step σ) := do
  if s.machine.proposals.contains proposal.block.id then return s
  if !(← p.isValid proposal) then return s
  let (added, c) ← p.store s.toContext proposal.block
  let s := { s with toContext := c }
  if !added then return s
  let s := { s with machine := s.machine.enlist proposal }
  let s ← if s.machine.policy.isHonest then p.tryToVote s else p.voteAnyway proposal s
  return p.tryToCommit s

/-! ### Own proposals -/

/-- The block of a value on top of the certified block, or a first block without one. -/
def nextBlock (parent : Option Certificate) (value : Bytes) : Except Fault Block :=
  match parent with
  | none => .ok (.genesis value)
  | some c =>
    match c.blockId? with
    | none => .ok (.genesis value)
    | some id => do Block.create (← successor c.height) value (some id)

/-- The proposal of a block, not yet signed. -/
def proposal (epoch : Epoch) (b : Block) (parent : Option Certificate) : Proposal where
  epoch
  block := b
  certificate := parent
  sender := p.id
  relay := p.id
  signature := .empty

/-- Proposes the next value on top of the highest certified block. -/
def propose (s : Step σ) : Except Fault (Step σ) := do
  let (value, c) := p.takeValue s.toContext
  let s := { s with toContext := c }
  match value with
  | none => return s
  | some value =>
    let b ← nextBlock s.machine.valid value
    return s.emit (.broadcast (.propose (p.proposal s.machine.epoch b s.machine.valid)))

/-- Proposes one value to the first half of the processes and another one to the rest. -/
def proposeSplit (s : Step σ) : Except Fault (Step σ) := do
  let (first, c) := p.takeValue s.toContext
  let (second, c) := p.takeValue c
  let s := { s with toContext := c }
  match first, second with
  | some first, some second =>
    let parent := s.machine.locked
    let a ← nextBlock parent first
    let b ← nextBlock parent second
    let count := UInt16.ofNat p.count
    let half := count / 2
    let s := s.emit
      (.send (.propose (p.proposal s.machine.epoch a parent)) (processRange 0 half))
    return s.emit
      (.send (.propose (p.proposal s.machine.epoch b parent)) (processRange half count))
  | _, _ => return s

/-- Whether a lock is of the epoch just before this one. -/
def followsLock (s : Step σ) : Except Fault Bool :=
  match s.machine.locked with
  | none => .ok false
  | some locked => do return (← successor locked.epoch) == s.machine.epoch

/-- Acts as the proposer of a starting epoch.  An equivocating one waits for more support unless
the epoch is the first or follows its lock. -/
def lead (s : Step σ) : Except Fault (Step σ) := do
  if !s.machine.policy.splits then p.propose s
  else if (← followsLock s) || s.machine.epoch = 0 then p.proposeSplit s
  else return p.schedule .epochChange s

end EpochConsensus.Host
