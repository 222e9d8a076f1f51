import EpochConsensus.Block
import EpochConsensus.Roster

/-! # Statements, ballots and certificates

A process signs one of two statements about an epoch: that its proposer stayed silent, or that a
block was proposed in it.  A `Ballot` is one signed statement; a `Certificate` holds the signatures
of distinct processes on one statement, in the order of their ids, and is a quorum once more than
half of the processes have signed.  Certificates are compared by their epoch alone
(`ranksAtLeast`).
-/
namespace EpochConsensus

/-! ### Signatures -/

/-- Sixty-four bytes; all of them zero stands for an unsigned message. -/
structure Signature where
  bytes : Octets 64
deriving DecidableEq

namespace Signature

/-- The placeholder of an unsigned message. -/
def empty : Signature := ⟨.fill 64 0⟩

def isEmpty (s : Signature) : Bool := s == empty

/-- The first four bytes, with the type. -/
def describe (s : Signature) : String := "Signature(" ++ hex (s.bytes.toList.take 4) ++ "..)"

end Signature

/-- Signatures of distinct processes. -/
abbrev Signatures := Roster Signature

/-! ### Statements -/

/-- What a statement about an epoch says. -/
inductive Subject where
  /-- The proposer was not heard in time. -/
  | silence
  /-- This block was proposed. -/
  | block (height : Height) (id : BlockId)
deriving DecidableEq

/-- The bytes that a process signs stand for a statement about one epoch. -/
structure Statement where
  epoch : Epoch
  subject : Subject
deriving DecidableEq

namespace Statement

/-- The signed bytes of a statement. -/
def payload : Statement → Bytes
  | ⟨epoch, .silence⟩ => littleEndian 8 epoch.toNat
  | ⟨epoch, .block height id⟩ =>
    littleEndian 8 epoch.toNat ++ (littleEndian 8 height.toNat ++ id.bytes.toList)

end Statement

/-- A signature with its author and what it signs. -/
structure Endorsement where
  signer : ProcessId
  statement : Statement
  signature : Signature
deriving DecidableEq

/-! ### Ballots -/

/-- Blame on a proposer that did not propose in time. -/
structure Silence where
  epoch : Epoch
  sender : ProcessId
  signature : Signature
deriving DecidableEq

/-- A vote for a block.  It may carry a second signature on the same statement, as a rule the
proposer's. -/
structure Vote where
  epoch : Epoch
  height : Height
  blockId : BlockId
  sender : ProcessId
  signature : Signature
  cosigner : ProcessId
  cosignature : Option Signature
deriving DecidableEq

/-- One signed statement. -/
inductive Ballot where
  | silence (s : Silence)
  | vote (v : Vote)
deriving DecidableEq

def Silence.statement (s : Silence) : Statement := ⟨s.epoch, .silence⟩

def Vote.statement (v : Vote) : Statement := ⟨v.epoch, .block v.height v.blockId⟩

/-! ### Certificates -/

/-- The two kinds of certificate. -/
inductive CertificateKind where
  | silence
  | block
deriving DecidableEq

namespace CertificateKind

def code : CertificateKind → UInt8
  | silence => 1
  | block => 2

def ofCode (code : UInt8) : Except Rejection CertificateKind :=
  if code = 1 then .ok silence
  else if code = 2 then .ok block
  else .error (.unknownCertificate code)

theorem ofCode_code (k : CertificateKind) : ofCode k.code = .ok k := by cases k <;> rfl

def name : CertificateKind → String
  | silence => "silence"
  | block => "block"

end CertificateKind

/-- The kind of certificate that collects signatures on a statement of this subject. -/
def Subject.kind : Subject → CertificateKind
  | silence => .silence
  | block _ _ => .block

/-- Signatures on one statement. -/
structure Certificate where
  statement : Statement
  signatures : Signatures
deriving DecidableEq

namespace Certificate

/-- The certificate of votes for a block, before the first vote. -/
def block (epoch : Epoch) (height : Height) (id : BlockId) : Certificate :=
  ⟨⟨epoch, .block height id⟩, .empty⟩

/-- The certificate of blame on an epoch's proposer, before the first blame. -/
def silence (epoch : Epoch) : Certificate := ⟨⟨epoch, .silence⟩, .empty⟩

def epoch (c : Certificate) : Epoch := c.statement.epoch

def kind (c : Certificate) : CertificateKind := c.statement.subject.kind

/-- The height of the certified block, zero for silence. -/
def height (c : Certificate) : Height :=
  match c.statement.subject with
  | .silence => 0
  | .block height _ => height

/-- The certified block. -/
def blockId? (c : Certificate) : Option BlockId :=
  match c.statement.subject with
  | .silence => none
  | .block _ id => some id

def signature? (c : Certificate) (process : ProcessId) : Option Signature :=
  c.signatures.get? process

def count (c : Certificate) : Nat := c.signatures.count

/-- The certificate with one more signature; the first signature of a process stays. -/
def add (c : Certificate) (process : ProcessId) (signature : Signature) : Certificate :=
  { c with signatures := c.signatures.insert process signature }

@[simp] theorem statement_add (c : Certificate) (process : ProcessId) (signature : Signature) :
    (c.add process signature).statement = c.statement := rfl

/-- Whether a process has signed. -/
def signedBy (c : Certificate) (process : ProcessId) : Bool := c.signatures.contains process

/-- One more signature is the only one that is new. -/
theorem signedBy_add (c : Certificate) (process : ProcessId) (signature : Signature)
    (other : ProcessId) :
    (c.add process signature).signedBy other = (decide (other = process) || c.signedBy other) := by
  unfold signedBy add Roster.contains
  by_cases h : other = process
  · subst h
    simp [Roster.get?_insert_self]
  · simp [Roster.get?_insert_of_ne _ h, h]

/-- Signatures of more than half of `processes`. -/
def hasQuorum (c : Certificate) (processes : Nat) : Bool := processes / 2 < c.count

/-- The locking rule: any certificate ranks at least as high as none, and otherwise one of a later
or equal epoch does. -/
def ranksAtLeast : Option Certificate → Option Certificate → Bool
  | _, none => true
  | none, some _ => false
  | some c, some d => d.epoch ≤ c.epoch

theorem ranksAtLeast_refl (c : Option Certificate) : ranksAtLeast c c = true := by
  cases c <;> simp [ranksAtLeast]

theorem ranksAtLeast_trans {a b c : Option Certificate} (hab : ranksAtLeast a b = true)
    (hbc : ranksAtLeast b c = true) : ranksAtLeast a c = true := by
  cases c with
  | none => simp [ranksAtLeast]
  | some c =>
    cases b with
    | none => simp [ranksAtLeast] at hbc
    | some b =>
      cases a with
      | none => simp [ranksAtLeast] at hab
      | some a =>
        simp only [ranksAtLeast, decide_eq_true_eq] at hab hbc ⊢
        exact UInt64.le_trans hbc hab

/-- The ballot that a signature on the certificate's statement amounts to. -/
def ballot (c : Certificate) (process : ProcessId) (signature : Signature) : Ballot :=
  match c.statement.subject with
  | .silence => .silence ⟨c.epoch, process, signature⟩
  | .block height id => .vote ⟨c.epoch, height, id, process, signature, process, none⟩

/-- The ballot of one process, if it has signed. -/
def ballot? (c : Certificate) (process : ProcessId) : Option Ballot :=
  (c.signature? process).map (c.ballot process)

/-- Every ballot, in the order of their senders. -/
def ballots (c : Certificate) : List Ballot := c.signatures.entries.map fun e => c.ballot e.1 e.2

/-- Every signature with its author and the common statement. -/
def endorsements (c : Certificate) : List Endorsement :=
  c.signatures.entries.map fun e => ⟨e.1, c.statement, e.2⟩

/-- A signature on the larger certificate is the one added or was there. -/
theorem mem_endorsements_add {c : Certificate} {process : ProcessId} {signature : Signature}
    {e : Endorsement} (h : e ∈ (c.add process signature).endorsements) :
    e = ⟨process, c.statement, signature⟩ ∨ e ∈ c.endorsements := by
  obtain ⟨entry, hentry, rfl⟩ := List.mem_map.mp h
  rcases Roster.mem_of_mem_place hentry with rfl | hold
  · exact .inl rfl
  · exact .inr (List.mem_map.mpr ⟨entry, hold, rfl⟩)

/-! ### Encoding -/

/-- The bytes of one signer and its signature. -/
def entrySize : Nat := 66

def encodeEntry (e : ProcessId × Signature) : Bytes :=
  littleEndian 2 e.1.toNat ++ e.2.bytes.toList

/-- A leading zero, the kind, the epoch, height and name for a block, and the signatures. -/
def encode (c : Certificate) : Bytes :=
  let subject := match c.statement.subject with
    | .silence => []
    | .block height id => littleEndian 8 height.toNat ++ id.bytes.toList
  0 :: c.kind.code ::
    (littleEndian 8 c.epoch.toNat ++ (subject ++ c.signatures.entries.flatMap encodeEntry))

/-- The length of a certificate's encoding. -/
def byteSize (c : Certificate) : Nat :=
  (match c.kind with
    | .silence => 10
    | .block => 50) + c.count * entrySize

/-- Reads `count` signatures; a repeated signer is passed over. -/
def readEntries : (count : Nat) → Signatures → Read Signatures
  | 0, s => return s
  | count + 1, s => do
    let process ← Read.process
    let signature ← Read.take 64
    readEntries count (s.insert process ⟨signature⟩)

/-- Reads what a certificate of this kind is about. -/
def readSubject : CertificateKind → Read Subject
  | .silence => return .silence
  | .block => do
    let height ← Read.word
    return .block height (← Read.blockId)

/-- Reads a certificate up to the end of the bytes, which must hold whole signatures. -/
def read : Read Certificate := do
  let code ← Read.byte
  if code ≠ 0 then throw (.foreign code)
  let kind ← CertificateKind.ofCode (← Read.byte)
  let epoch ← Read.word
  let subject ← readSubject kind
  let here ← get
  let count := here.rest.length / entrySize
  if here.rest.length % entrySize ≠ 0 then
    throw (.lengthMismatch (here.offset + count * entrySize) (here.offset + here.rest.length))
  return ⟨⟨epoch, subject⟩, ← readEntries count .empty⟩

def decode (bytes : Bytes) : Except Rejection Certificate := Read.run read bytes

end Certificate

end EpochConsensus
