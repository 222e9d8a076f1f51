import EpochConsensus.Certificate

/-! # Messages

What processes send each other.  Every message but the two latency probes belongs to an epoch.
The signature of a proposal covers the same statement as a vote for its block, so a proposal is its
proposer's vote.  `endorsements` lists every signature a message carries.
-/
namespace EpochConsensus

/-- A proposed block with the certificate that justifies its predecessor.  `relay` is the last
process that passed it on. -/
structure Proposal where
  epoch : Epoch
  block : Block
  certificate : Option Certificate
  sender : ProcessId
  relay : ProcessId
  signature : Signature
deriving DecidableEq

/-- The statement that a proposer signs: a vote for the proposed block. -/
def Proposal.statement (p : Proposal) : Statement := ⟨p.epoch, .block p.block.height p.block.id⟩

/-- The proposer's vote that a proposal amounts to. -/
def Proposal.vote (p : Proposal) : Vote where
  epoch := p.epoch
  height := p.block.height
  blockId := p.block.id
  sender := p.sender
  signature := p.signature
  cosigner := p.sender
  cosignature := some p.signature

/-- The payload of a latency probe. -/
structure Echo where
  payload : Bytes
  sender : ProcessId
deriving DecidableEq

inductive Message where
  | propose (p : Proposal)
  | silence (s : Silence)
  | vote (v : Vote)
  /-- A quorum that makes other processes leave the epoch. -/
  | quitEpoch (certificate : Certificate)
  /-- A certificate sent on its own, with the epoch it matters to. -/
  | certificate (epoch : Epoch) (certificate : Certificate)
  | probe (e : Echo)
  | answer (e : Echo)
deriving DecidableEq

/-- The kinds of message. -/
inductive MessageKind where
  | propose
  | silence
  | vote
  | quitEpoch
  | certificate
  | probe
  | answer
deriving DecidableEq

namespace MessageKind

def code : MessageKind → UInt8
  | propose => 0
  | silence => 1
  | vote => 2
  | quitEpoch => 3
  | certificate => 4
  | probe => 5
  | answer => 6

def ofCode (code : UInt8) : Except Rejection MessageKind :=
  match code.toNat with
  | 0 => .ok propose
  | 1 => .ok silence
  | 2 => .ok vote
  | 3 => .ok quitEpoch
  | 4 => .ok certificate
  | 5 => .ok probe
  | 6 => .ok answer
  | _ => .error (.unknownKind code)

theorem ofCode_code (k : MessageKind) : ofCode k.code = .ok k := by cases k <;> rfl

def name : MessageKind → String
  | propose => "propose"
  | silence => "silence"
  | vote => "vote"
  | quitEpoch => "quit_epoch"
  | certificate => "certificate"
  | probe => "delta_request"
  | answer => "delta_response"

end MessageKind

def Ballot.toMessage : Ballot → Message
  | silence s => .silence s
  | vote v => .vote v

namespace Message

def kind : Message → MessageKind
  | propose _ => .propose
  | silence _ => .silence
  | vote _ => .vote
  | quitEpoch _ => .quitEpoch
  | certificate _ _ => .certificate
  | probe _ => .probe
  | answer _ => .answer

/-- The epoch that a message belongs to. -/
def epoch? : Message → Option Epoch
  | propose p => some p.epoch
  | silence s => some s.epoch
  | vote v => some v.epoch
  | quitEpoch c => some c.epoch
  | certificate epoch _ => some epoch
  | probe _ | answer _ => none

/-- The author of a message, where it names one. -/
def sender? : Message → Option ProcessId
  | propose p => some p.sender
  | silence s => some s.sender
  | vote v => some v.sender
  | probe e | answer e => some e.sender
  | quitEpoch _ | certificate _ _ => none

/-- The statement that the author signs, for the signed kinds. -/
def statement? : Message → Option Statement
  | propose p => some p.statement
  | silence s => some s.statement
  | vote v => some v.statement
  | _ => none

/-- The statement that a process signs when it sends the message: the author's, if it is the
author. -/
def statementBy? (process : ProcessId) (m : Message) : Option Statement :=
  if m.sender? = some process then m.statement? else none

/-- The author's signature. -/
def signature? : Message → Option Signature
  | propose p => some p.signature
  | silence s => some s.signature
  | vote v => some v.signature
  | _ => none

/-- The message with the author's signature on it; kinds that are not signed stay as they are. -/
def withSignature (signature : Signature) : Message → Message
  | propose p => propose { p with signature }
  | silence s => silence { s with signature }
  | vote v => vote { v with signature }
  | m => m

/-- Every signature in a message.  The second signature of a vote comes before its own, and a
proposal's own before those of its certificate. -/
def endorsements : Message → List Endorsement
  | propose p =>
    ⟨p.sender, p.statement, p.signature⟩ :: p.certificate.elim [] Certificate.endorsements
  | silence s => [⟨s.sender, s.statement, s.signature⟩]
  | vote v =>
    (v.cosignature.map (Endorsement.mk v.cosigner v.statement)).toList ++
      [⟨v.sender, v.statement, v.signature⟩]
  | quitEpoch c | certificate _ c => c.endorsements
  | probe _ | answer _ => []

end Message

end EpochConsensus
