import EpochConsensus.Epoch.Machine
import EpochConsensus.Proofs.Basic
import Mathlib.Logic.Relation

/-! # A call as a path of moves

The handlers of an epoch call one another, and one message may change the phase several times.  A
`Move` is one of the changes that calls are made of, with the condition under which it happens.
Every call on a started epoch is a path of moves, so what all moves keep, all calls keep: a fact
about every epoch is proved once for each move and never again through the handlers.

A move that takes something over from a message says that the signatures on it were `heard`.  What
counts as heard is left open: every signature, or the genuine ones.
-/
namespace EpochConsensus

/-! ### Signatures that were heard -/

section CarriesOnly
variable (heard : Endorsement → Prop)

/-- Every signature in the message was heard. -/
def Message.CarriesOnly (m : Message) : Prop := ∀ e ∈ m.endorsements, heard e

/-- Every signature in the certificate was heard. -/
def Certificate.CarriesOnly (c : Certificate) : Prop := ∀ e ∈ c.endorsements, heard e

end CarriesOnly

/-- Only these are proposed in the message, if it is a proposal. -/
def Message.ProposesOnly (offered : Proposal → Prop) (m : Message) : Prop :=
  ∀ proposal, m = .propose proposal → offered proposal

/-! ### What the moves are made of -/

/-- The certificate of a vote's block once the vote is counted. -/
def Machine.counted (m : Machine) (proposer : ProcessId) (v : Vote) : Certificate :=
  ((m.votes.get m.epoch v.height v.blockId).addCarried proposer v).add v.sender v.signature

/-- The epoch has started and has not handed over. -/
def Machine.IsOpen (m : Machine) : Prop := m.phase = .ready ∨ m.phase = .epochChange

namespace Host

variable {σ : Type} (p : Host σ) (heard : Endorsement → Prop)

/-- The host was asked for a timeout, or for nothing. -/
def Asks (c c' : Context σ) : Prop := c' = c ∨ ∃ t, c' = (p.request c t).2

/-- Since `w` the host was only asked for timeouts. -/
def Requested : σ → σ → Prop := Relation.ReflTransGen fun w w' => ∃ t, w' = (p.accepts t w).2

/-- What makes an honest process vote for a proposal. -/
structure Votable (proposal : Proposal) (m : Machine) (world : σ) : Prop where
  fresh : m.hasVoted = false
  /-- Another process proposes in the epoch. -/
  turn : ∃ q, p.proposer m.epoch = .ok q ∧ q ≠ p.id
  single : m.proposals.single? = some proposal
  ranks : Certificate.ranksAtLeast proposal.certificate m.initialLocked = true
  linked : ∃ w, p.extendsChain proposal.block w = true ∧ p.Requested w world

/-- One change that a call makes to a started epoch. -/
inductive Move : Step σ → Step σ → Prop
  /-- A timeout is requested, unless it already is. -/
  | schedule {s : Step σ} {c : Context σ} (timers : Timers) (asked : p.Asks s.toContext c) :
      Move s { s with toContext := c, machine.timers := timers }
  /-- The store refuses a proposed block. -/
  | refuse {s : Step σ} {proposal : Proposal} {c : Context σ}
      (asked : p.store s.toContext proposal.block = .ok (false, c)) :
      Move s { s with toContext := c }
  /-- The store takes the block of a new valid proposal. -/
  | enlist {s : Step σ} {proposal : Proposal} {c : Context σ}
      (fresh : s.machine.proposals.contains proposal.block.id = false)
      (valid : p.isValid proposal = .ok true)
      (admitted : (Message.propose proposal).CarriesOnly heard)
      (asked : p.store s.toContext proposal.block = .ok (true, c)) :
      Move s { s with toContext := c, machine := s.machine.enlist proposal }
  | relay {s : Step σ} {proposal : Proposal}
      (admitted : (Message.propose proposal).CarriesOnly heard) :
      Move s (s.emit (.forward (.propose { proposal with relay := p.id })))
  | count {s : Step σ} {v : Vote} {proposer : ProcessId}
      (current : v.epoch = s.machine.epoch)
      (turn : p.proposer s.machine.epoch = .ok proposer)
      (admitted : (Message.vote v).CarriesOnly heard) :
      Move s { s with machine.votes := s.machine.votes.put (s.machine.counted proposer v) }
  /-- The proposer has signed two blocks. -/
  | expose {s : Step σ} {proposer : ProcessId}
      (turn : p.proposer s.machine.epoch = .ok proposer)
      (fresh : s.machine.equivocation = false)
      (two : 2 ≤ (s.machine.votes.signedBy proposer).length) :
      Move s ({ s with machine.equivocation := true
                       machine.phase := s.machine.phase.exposed : Step σ }.forwardAll
        (s.machine.evidence proposer))
  /-- A majority has voted for one block. -/
  | lock {s : Step σ} {c : Certificate} (phase : s.machine.phase = .ready)
      (counted : c ∈ s.machine.votes.toList) (quorum : c.hasQuorum p.count = true) :
      Move s (({ s with machine.phase := .locked
                        machine.valid := some c
                        machine.locked := some c : Step σ }.emit
        (.broadcast (.quitEpoch c))).emit (.finish s.machine.epoch (some c) (some c)))
  /-- A majority has voted for one block although the proposer failed. -/
  | pass {s : Step σ} {c : Certificate} (phase : s.machine.phase = .epochChange)
      (counted : c ∈ s.machine.votes.toList) (quorum : c.hasQuorum p.count = true)
      {locked : Option Certificate}
      (lock : locked = if s.machine.policy.isHonest then s.machine.locked else some c) :
      Move s (({ s with machine.phase := .finished
                        machine.valid := some c
                        machine.locked := locked : Step σ }.emit
        (.broadcast (.quitEpoch c))).emit (.finish s.machine.epoch (some c) locked))
  | decide {s : Step σ} {c : Certificate} {id : BlockId} (phase : s.machine.phase = .locked)
      (locked : s.machine.locked = some c) (names : c.blockId? = some id) :
      Move s { s with machine.phase := .commit, machine.decision := some (c.height, id) }
  | commit {s : Step σ} {key : BlockKey} {proposal : Proposal} (phase : s.machine.phase = .commit)
      (decided : s.machine.decision = some key)
      (found : s.machine.proposals.find? key.2 = some proposal)
      (linked : p.extendsChain proposal.block s.world = true) :
      Move s ((s.enter .finished).emit (.decide s.machine.epoch proposal.block))
  | cast {s : Step σ} {proposal : Proposal}
      (admitted : (Message.propose proposal).CarriesOnly heard)
      (votable : s.machine.policy.isHonest = true → p.Votable proposal s.machine s.world) :
      Move s (p.cast proposal s)
  /-- A process that votes for everything follows the certificate of a proposal. -/
  | follow {s : Step σ} {proposal : Proposal} (faulty : s.machine.policy.isHonest = false)
      (admitted : (Message.propose proposal).CarriesOnly heard) :
      Move s { s with machine.locked := proposal.certificate }
  | blame {s : Step σ} {b : Silence} (current : b.epoch = s.machine.epoch)
      (phase : s.machine.phase = .ready ∨ s.machine.phase = .locked)
      (admitted : (Message.silence b).CarriesOnly heard) :
      Move s { s with machine.blame := s.machine.blame.add b.sender b.signature }
  /-- A majority has blamed the proposer before any block was locked. -/
  | leave {s : Step σ} (phase : s.machine.phase = .ready)
      (quorum : s.machine.blame.hasQuorum p.count = true) :
      Move s ((s.enter .epochChange).emit (.broadcast (.quitEpoch s.machine.blame)))
  /-- A majority has blamed the proposer of the locked block. -/
  | abandon {s : Step σ} (phase : s.machine.phase = .locked)
      (quorum : s.machine.blame.hasQuorum p.count = true) : Move s (s.enter .finished)
  | expire {s : Step σ} (kind : TimeoutKind) :
      Move s { s with machine.timers := s.machine.timers.expire kind }
  | accuse {s : Step σ} (phase : s.machine.phase = .ready) (fresh : s.machine.hasVoted = false) :
      Move s (s.emit (.broadcast (.silence ⟨s.machine.epoch, p.id, .empty⟩)))
  | quit {s : Step σ} (phase : s.machine.phase = .epochChange) :
      Move s ((s.enter .finished).emit (.finish s.machine.epoch s.machine.valid s.machine.locked))
  | split {s s' : Step σ} (faulty : s.machine.policy.splits = true)
      (done : p.proposeSplit s = .ok s') : Move s s'

/-- Any number of moves. -/
abbrev Moves : Step σ → Step σ → Prop := Relation.ReflTransGen (p.Move heard)

variable {p heard} {s s' : Step σ}

/-- Who has heard more moves as well. -/
theorem Move.mono {heard' : Endorsement → Prop} (move : p.Move heard s s')
    (hle : ∀ e, heard e → heard' e) : p.Move heard' s s' := by
  have hcarries : ∀ m : Message, m.CarriesOnly heard → m.CarriesOnly heard' :=
    fun m hm e he => hle e (hm e he)
  cases move with
  | schedule timers asked => exact .schedule timers asked
  | refuse asked => exact .refuse asked
  | enlist fresh valid admitted asked => exact .enlist fresh valid (hcarries _ admitted) asked
  | relay admitted => exact .relay (hcarries _ admitted)
  | count current turn admitted => exact .count current turn (hcarries _ admitted)
  | expose turn fresh two => exact .expose turn fresh two
  | lock phase counted quorum => exact .lock phase counted quorum
  | pass phase counted quorum lock => exact .pass phase counted quorum lock
  | decide phase locked names => exact .decide phase locked names
  | commit phase decided found linked => exact .commit phase decided found linked
  | cast admitted votable => exact .cast (hcarries _ admitted) votable
  | follow faulty admitted => exact .follow faulty (hcarries _ admitted)
  | blame current phase admitted => exact .blame current phase (hcarries _ admitted)
  | leave phase quorum => exact .leave phase quorum
  | abandon phase quorum => exact .abandon phase quorum
  | expire kind => exact .expire kind
  | accuse phase fresh => exact .accuse phase fresh
  | quit phase => exact .quit phase
  | split faulty done => exact .split faulty done

theorem Moves.mono {heard' : Endorsement → Prop} (moves : p.Moves heard s s')
    (hle : ∀ e, heard e → heard' e) : p.Moves heard' s s' :=
  Relation.ReflTransGen.mono (fun _ _ move => Move.mono move hle) _ _ moves

end Host

end EpochConsensus
