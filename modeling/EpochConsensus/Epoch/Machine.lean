import EpochConsensus.Epoch.Machine.Proposing

/-! # Epochs of consensus

The calls that drive an epoch: `start` with the certificates of the epochs before, `receive` for
each message, `expire` for each timeout, and `stop`.

    inactive --start--> ready --block certificate--> locked --timeout--> commit --> finished
                          |                                                            ^
                          +--blame or equivocation--> epochChange --certificate/timeout-+

Messages that come before the start wait, up to a limit, and are received in order after it.  A
finished epoch and a silent process ignore everything.
-/
namespace EpochConsensus.Host

variable {σ : Type} (p : Host σ)

/-! ### Messages -/

/-- Receives something in a started epoch: nothing happens once the epoch is finished or for a
silent process, and refused timeouts are requested first. -/
def whileActive (handle : Step σ → Except Fault (Step σ)) (s : Step σ) : Except Fault (Step σ) :=
  if s.machine.phase = .finished || s.machine.policy.isSilent then .ok s
  else handle (p.retryRefused s)

/-- Receives every ballot of a certificate of this epoch. -/
def onQuitEpoch (c : Certificate) (s : Step σ) : Except Fault (Step σ) :=
  if c.epoch ≠ s.machine.epoch then .ok s
  else c.ballots.foldlM (fun s b => p.whileActive (p.onBallot b) s) s

def onMessage : Message → Step σ → Except Fault (Step σ)
  | .propose proposal, s => p.onProposal proposal s
  | .silence b, s => .ok (p.onSilence b s)
  | .vote v, s => p.onVote v s
  | .quitEpoch c, s => p.onQuitEpoch c s
  | .certificate _ _, s | .probe _, s | .answer _, s => .ok s

/-- Keeps a message for the start, unless too many wait. -/
def keep (m : Message) (s : Step σ) : Step σ :=
  if s.machine.pending.length < s.machine.pendingLimit then
    { s with machine.pending := s.machine.pending ++ [m] }
  else s

/-- Receives a message. -/
def receive (m : Message) (s : Step σ) : Except Fault (Step σ) :=
  if s.machine.phase = .inactive then .ok (keep m s) else p.whileActive (p.onMessage m) s

/-! ### Start and stop -/

/-- Acts as the proposer, or starts to wait for it. -/
def begin (s : Step σ) : Except Fault (Step σ) := do
  if (← p.proposer s.machine.epoch) = p.id then p.lead s else return p.schedule .propose s

/-- Starts an epoch with the highest known certificate and the lock.  A second start does
nothing. -/
def start (valid locked : Option Certificate) (s : Step σ) : Except Fault (Step σ) := do
  if s.machine.started then return s
  let pending := s.machine.pending
  let s : Step σ := { s with machine := s.machine.opened valid locked }
  if s.machine.policy.isSilent then return { s with machine.pending := [] }
  let s ← p.begin s
  pending.foldlM (fun s m => p.receive m s) { s with machine.pending := [] }

end EpochConsensus.Host

namespace EpochConsensus

/-- The epoch ended from outside. -/
def Machine.stop (m : Machine) : Machine := { m with phase := .finished }

namespace Host

variable {σ : Type} (p : Host σ)

/-! ### Timeouts -/

/-- What a started epoch does when a timeout is due. -/
def onTimeout : TimeoutKind → Step σ → Except Fault (Step σ)
  | .propose, s =>
    if s.machine.phase = .ready && !s.machine.hasVoted && s.machine.policy.isHonest then
      .ok (s.emit (.broadcast (.silence ⟨s.machine.epoch, p.id, .empty⟩)))
    else .ok s
  | .equivocation, s => .ok (if s.machine.phase = .locked then p.decideLocked s else s)
  | .quitEpoch, s =>
    if s.machine.phase = .epochChange then
      let s := s.enter .finished
      .ok (s.emit (.finish s.machine.epoch s.machine.valid s.machine.locked))
    else .ok s
  | .epochChange, s => do
    if !s.machine.policy.splits then return s
    if (← p.proposer s.machine.epoch) = p.id then p.proposeSplit s else return s

/-- Receives a timeout. -/
def expire (t : Timeout) (s : Step σ) : Except Fault (Step σ) :=
  if s.machine.phase = .inactive || s.machine.phase = .finished || s.machine.policy.isSilent ||
      t.epoch ≠ s.machine.epoch then
    .ok s
  else
    p.onTimeout t.kind { s with machine.timers := s.machine.timers.expire t.kind }

end Host

end EpochConsensus
