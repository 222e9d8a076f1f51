import EpochConsensus.Epoch.Host

/-! # Votes, blame and decisions

What an epoch does with the votes and the blame it receives.  A block certificate locks the epoch,
or ends it once the proposer has failed; blame of a majority, or two blocks signed by the proposer,
make it leave.  A locked block is decided, and handed on once its proposal and its ancestors are
stored.
-/
namespace EpochConsensus.Host

variable {σ : Type} (p : Host σ)

/-! ### Timeouts -/

/-- Requests a timeout, unless one is already accepted. -/
def schedule (kind : TimeoutKind) (s : Step σ) : Step σ :=
  if s.machine.timers.get kind = .accepted then s
  else
    let (accepted, c) := p.request s.toContext ⟨s.machine.epoch, kind, p.patience kind⟩
    let timer := if accepted then Timer.accepted else .refused
    { s with toContext := c, machine.timers := s.machine.timers.set timer kind }

/-- Requests again what was refused. -/
def retryRefused (s : Step σ) : Step σ :=
  TimeoutKind.all.foldl
    (fun s kind => if s.machine.timers.get kind = .refused then p.schedule kind s else s) s

/-! ### Decisions -/

/-- Hands a decided block on, once it is proposed and linked. -/
def tryToCommit (s : Step σ) : Step σ :=
  match s.machine.phase, s.machine.decision.bind fun key => s.machine.proposals.find? key.2 with
  | .commit, some proposal =>
    if p.extendsChain proposal.block s.world then
      (s.enter .finished).emit (.decide s.machine.epoch proposal.block)
    else s
  | _, _ => s

/-- Decides the locked block. -/
def decideLocked (s : Step σ) : Step σ :=
  match s.machine.locked with
  | none => s
  | some locked =>
    match locked.blockId? with
    | none => s
    | some id =>
      p.tryToCommit { s with machine := { s.machine with
        phase := .commit, decision := some (locked.height, id) } }

/-! ### Certificates -/

/-- A majority has voted for one block: lock it, or leave an epoch whose proposer failed. -/
def onBlockCertificate (c : Certificate) (s : Step σ) : Step σ :=
  match s.machine.phase with
  | .locked | .commit | .finished => s
  | phase =>
    let s := { s with machine.valid := some c }
    let s := match phase with
      | .ready =>
        p.schedule .equivocation
          { s with machine := { s.machine with phase := .locked, locked := some c } }
      | .epochChange =>
        let locked := if s.machine.policy.isHonest then s.machine.locked else some c
        { s with machine := { s.machine with phase := .finished, locked } }
      | _ => s
    (s.emit (.broadcast (.quitEpoch c))).emit
      (.finish s.machine.epoch s.machine.valid s.machine.locked)

/-- A majority has blamed the proposer: leave the epoch, without a decision if a block is
locked. -/
def onSilenceCertificate (s : Step σ) : Step σ :=
  match s.machine.phase with
  | .ready =>
    p.schedule .quitEpoch ((s.enter .epochChange).emit (.broadcast (.quitEpoch s.machine.blame)))
  | .locked => s.enter .finished
  | _ => s

/-! ### Votes -/

/-- Leaves the epoch when the proposer has signed two blocks, and shows its signatures to the
other processes. -/
def exposeEquivocation (proposer : ProcessId) (s : Step σ) : Step σ :=
  if s.machine.equivocation || (s.machine.votes.signedBy proposer).length < 2 then s
  else
    let left : Step σ := { s with machine := { s.machine with
      equivocation := true, phase := s.machine.phase.exposed } }
    let left := if s.machine.phase = .ready then p.schedule .quitEpoch left else left
    left.forwardAll (s.machine.evidence proposer)

/-- Acts on the votes for one block, of which one is new; `signed` says whether the proposer's
is. -/
def onCounted (proposer : ProcessId) (signed : Bool) (c : Certificate) (s : Step σ) : Step σ :=
  let s := { s with machine.votes := s.machine.votes.put c }
  let s := if signed then p.exposeEquivocation proposer s else s
  let s := if c.hasQuorum p.count then p.onBlockCertificate c s else s
  if s.machine.policy.fastPath && c.count = p.count && s.machine.phase = .locked then
    p.decideLocked s
  else s

/-- Counts a vote, and the second signature that it carries if that is the proposer's. -/
def onVote (v : Vote) (s : Step σ) : Except Fault (Step σ) := do
  if s.machine.phase = .commit || v.epoch ≠ s.machine.epoch then return s
  let proposer ← p.proposer s.machine.epoch
  let before := s.machine.votes.get s.machine.epoch v.height v.blockId
  let between := before.addCarried proposer v
  let carried := between.signedBy proposer && !before.signedBy proposer
  if between.signedBy v.sender && !carried then return s
  return p.onCounted proposer (carried || v.sender = proposer)
    (between.add v.sender v.signature) s

/-- Counts blame on the proposer, as long as nothing else has happened. -/
def onSilence (b : Silence) (s : Step σ) : Step σ :=
  if (s.machine.phase ≠ .ready && s.machine.phase ≠ .locked) || b.epoch ≠ s.machine.epoch then s
  else if s.machine.blame.signedBy b.sender then s
  else
    let blame := s.machine.blame.add b.sender b.signature
    let s := { s with machine.blame := blame }
    if blame.hasQuorum p.count then p.onSilenceCertificate s else s

def onBallot : Ballot → Step σ → Except Fault (Step σ)
  | .silence b, s => .ok (p.onSilence b s)
  | .vote v, s => p.onVote v s

end EpochConsensus.Host
