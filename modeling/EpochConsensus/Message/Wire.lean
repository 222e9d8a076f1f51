import EpochConsensus.Message

/-! # Messages as bytes

Every message starts with a zero and the code of its kind; its fields follow, numbers least
significant byte first.  A proposal states the length of its block, and its certificate ends where
the fixed fields after it begin.  `decode` reads what `encode` writes and refuses bytes that end
early or go on after the last field.
-/
namespace EpochConsensus.Message

/-- The bytes after the code, kind by kind. -/
def body : Message → Bytes
  | propose p =>
    littleEndian 8 p.epoch.toNat ++ littleEndian 4 p.block.byteSize ++ p.block.encode ++
      (p.certificate.elim [0] (1 :: ·.encode)) ++ littleEndian 2 p.sender.toNat ++
      littleEndian 2 p.relay.toNat ++ p.signature.bytes.toList
  | silence s =>
    littleEndian 8 s.epoch.toNat ++ littleEndian 2 s.sender.toNat ++ s.signature.bytes.toList
  | vote v =>
    littleEndian 8 v.epoch.toNat ++ littleEndian 8 v.height.toNat ++ v.blockId.bytes.toList ++
      littleEndian 2 v.cosigner.toNat ++ (v.cosignature.getD .empty).bytes.toList ++
      littleEndian 2 v.sender.toNat ++ v.signature.bytes.toList
  | quitEpoch c => c.encode
  | certificate epoch c => littleEndian 8 epoch.toNat ++ c.encode
  | probe e | answer e => e.payload ++ littleEndian 2 e.sender.toNat

/-- The bytes of a message. -/
def encode (m : Message) : Bytes := 0 :: m.kind.code :: m.body

/-- The length of a message's encoding. -/
def byteSize : Message → Nat
  | propose p =>
    2 + (8 + 4 + p.block.byteSize + (1 + p.certificate.elim 0 Certificate.byteSize) + 2 + 2 + 64)
  | silence _ => 2 + (8 + 2 + 64)
  | vote _ => 2 + (8 + 8 + 32 + 2 + 64 + 2 + 64)
  | quitEpoch c => 2 + c.byteSize
  | certificate _ c => 2 + (8 + c.byteSize)
  | probe e | answer e => 2 + (e.payload.length + 2)

/-- What follows the certificate of a proposal: two process ids and a signature. -/
def trailerSize : Nat := 68

def readSignature : Read Signature := Signature.mk <$> Read.take 64

/-- Reads a proposal.  Any flag but zero announces a certificate. -/
def readProposal : Read Proposal := do
  let epoch ← Read.word
  let size ← Read.number 4
  let block ← Block.decode (← Read.take size).toList
  let flag ← Read.byte
  let certificate ←
    if flag = 0 then pure none
    else some <$> Certificate.decode (← Read.takeAllBut trailerSize)
  let sender ← Read.process
  let relay ← Read.process
  return { epoch, block, certificate, sender, relay, signature := ← readSignature }

def readSilence : Read Silence := do
  let epoch ← Read.word
  let sender ← Read.process
  return { epoch, sender, signature := ← readSignature }

/-- Reads a vote.  An all-zero second signature stands for none. -/
def readVote : Read Vote := do
  let epoch ← Read.word
  let height ← Read.word
  let blockId ← Read.blockId
  let cosigner ← Read.process
  let second ← readSignature
  let sender ← Read.process
  let signature ← readSignature
  return { epoch, height, blockId, sender, signature, cosigner,
           cosignature := if second.isEmpty then none else some second }

def readEcho : Read Echo := do
  let payload ← Read.takeAllBut 2
  return { payload, sender := ← Read.process }

/-- Reads the fields of one kind of message. -/
def readBody : MessageKind → Read Message
  | .propose => propose <$> readProposal
  | .silence => silence <$> readSilence
  | .vote => vote <$> readVote
  | .quitEpoch => do return quitEpoch (← Certificate.decode (← Read.takeRest))
  | .certificate => do
    let epoch ← Read.word
    return certificate epoch (← Certificate.decode (← Read.takeRest))
  | .probe => probe <$> readEcho
  | .answer => answer <$> readEcho

/-- Reads a message that takes up all of the bytes. -/
def read : Read Message := do
  let code ← Read.byte
  if code ≠ 0 then throw (.foreign code)
  let kind ← MessageKind.ofCode (← Read.byte)
  let message ← readBody kind
  Read.finish
  return message

def decode (bytes : Bytes) : Except Rejection Message := Read.run read bytes

end EpochConsensus.Message
