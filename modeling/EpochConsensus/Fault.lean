import EpochConsensus.Octets

/-! # What can go wrong

Two kinds of failure are kept apart.  A `Rejection` refuses one input (bytes that do not decode, a
signature that does not verify, a configuration that makes no sense) and leaves everything as it
was.  A `Fault` ends the computation that meets it: a counter at its last value, a system without
processes, a commit whose ancestors are not stored.  `message` gives the text of each.  Setting
something up can fail in both ways, which a `Failure` keeps apart.
-/
namespace EpochConsensus

/-- Number of a consensus round. -/
abbrev Epoch := UInt64

/-- Position of a block in the chain; the first block has height zero. -/
abbrev Height := UInt64

/-- Number of a process, counted from zero. -/
abbrev ProcessId := UInt16

/-- Name of a block: the SHA-256 digest of its encoding. -/
structure BlockId where
  bytes : Octets 32
deriving DecidableEq

namespace BlockId

/-- The first four bytes in hexadecimal. -/
def short (id : BlockId) : String := hex (id.bytes.toList.take 4)

/-- The abbreviated name with its type. -/
def describe (id : BlockId) : String := "BlockId(" ++ id.short ++ ")"

end BlockId

/-! ### Faults -/

/-- A failure that ends the computation. -/
inductive Fault where
  /-- A counter would pass its last value. -/
  | overflow
  /-- A remainder modulo zero: a system without processes or a window without slots. -/
  | zeroModulus
  /-- A first block with a predecessor, or a later one without. -/
  | unrooted
  /-- A block store without any height slot. -/
  | emptyStore
  /-- A queue without room for anything. -/
  | emptyQueue
  /-- A queue for more than can be counted. -/
  | oversizedQueue
  /-- More slots than fit into memory. -/
  | oversizedStore
  /-- A cache with more places than fit into memory. -/
  | oversizedCache
  /-- The commit of a block reaches a height where nothing is stored. -/
  | missing (height : Height) (id : BlockId) (reached : Height)
  /-- The commit of a block reaches a stored block without a linked predecessor. -/
  | unlinked (height : Height) (id : BlockId) (reached : Height)
deriving DecidableEq

namespace Fault

/-- Text of a failed commit. -/
def commitText (height : Height) (id : BlockId) (reached : Height) (cause : String) : String :=
  "committing height " ++ toString height.toNat ++ " (" ++ id.short ++ "): block at height " ++
    toString reached.toNat ++ cause

def message : Fault → String
  | overflow => "attempt to add with overflow"
  | zeroModulus => "attempt to calculate the remainder with a divisor of zero"
  | unrooted =>
    "assertion `left == right` failed: only genesis-height blocks lack a predecessor"
  | emptyStore => "blockchain window must hold at least one height"
  | emptyQueue => "mpsc bounded channel requires buffer > 0"
  | oversizedQueue =>
    "a semaphore may not have more than MAX_PERMITS permits (2305843009213693951)"
  | oversizedStore => "capacity overflow"
  | oversizedCache => "Hash table capacity overflow"
  | missing height id reached => commitText height id reached " missing from the window"
  | unlinked height id reached => commitText height id reached " is not linked"

end Fault

/-- The next value of a 64-bit counter. -/
def successor (n : UInt64) : Except Fault UInt64 :=
  if n = UInt64.ofNat (UInt64.size - 1) then .error .overflow else .ok (n + 1)

/-- `a` modulo `n`, for a positive `n`. -/
def remainder (a n : Nat) : Except Fault Nat :=
  if n = 0 then .error .zeroModulus else .ok (a % n)

/-- The capacity of a queue: at least one, and below `2 ^ 61`. -/
def queueCapacity (n : Nat) : Except Fault Nat :=
  if n = 0 then .error .emptyQueue
  else if UInt64.size / 8 ≤ n then .error .oversizedQueue
  else .ok n

/-- The most slots that memory has room for: `2 ^ 56`. -/
def slotLimit : Nat := UInt64.size / 256

/-- A number of slots, up to the limit. -/
def slotCount (n : Nat) : Except Fault Nat :=
  if slotLimit < n then .error .oversizedStore else .ok n

/-! ### Rejections -/

/-- Why a configuration is refused. -/
inductive ConfigDefect where
  /-- The text is no configuration document. -/
  | unreadable
  /-- A field that must be positive is zero. -/
  | zero (field : String)
  /-- A process whose id is not below the number of processes. -/
  | outside (process : ProcessId) (processes : Nat)
deriving DecidableEq

namespace ConfigDefect

def message : ConfigDefect → String
  | unreadable => "(JSON)"
  | zero field => field ++ " cannot be 0"
  | outside process processes =>
    "process " ++ toString process.toNat ++ " outside a system of " ++ toString processes

end ConfigDefect

/-- The input queues of a running replica. -/
inductive Queue where
  | messages
  | timeouts
deriving DecidableEq

/-- A refused input. -/
inductive Rejection where
  /-- The bytes end before a field does. -/
  | truncated (offset needed available : Nat)
  /-- The leading byte is not that of a consensus message. -/
  | foreign (code : UInt8)
  | unknownKind (code : UInt8)
  | unknownCertificate (code : UInt8)
  /-- The fields end before the bytes do. -/
  | lengthMismatch (declared actual : Nat)
  | config (defect : ConfigDefect)
  /-- A signer without an entry in the key table. -/
  | unknownSigner (process : ProcessId)
  | badSignature (process : ProcessId)
  | badKey (process : ProcessId)
  /-- An input queue whose senders are gone. -/
  | closed (queue : Queue)
deriving DecidableEq

namespace Rejection

def message : Rejection → String
  | truncated offset needed available =>
    "Buffer truncated: needed " ++ toString needed ++ " bytes at offset " ++ toString offset ++
      ", " ++ toString available ++ " available"
  | foreign code => "Not a consensus message: code " ++ toString code.toNat
  | unknownKind code => "Unknown message type: " ++ toString code.toNat
  | unknownCertificate code => "Invalid certificate kind: " ++ toString code.toNat
  | lengthMismatch declared actual =>
    "Length mismatch: declared " ++ toString declared ++ ", actual " ++ toString actual
  | config defect => "Invalid configuration: " ++ defect.message
  | unknownSigner process => "Unknown signer: process " ++ toString process.toNat
  | badSignature process => "Invalid signature from process " ++ toString process.toNat
  | badKey process => "Invalid public key for process " ++ toString process.toNat
  | closed .messages => "Channel closed: messages"
  | closed .timeouts => "Channel closed: timeouts"

end Rejection

/-! ### Failures -/

/-- Why something cannot be set up. -/
inductive Failure where
  | refused (r : Rejection)
  | faulted (f : Fault)
deriving DecidableEq

instance : MonadLift (Except Rejection) (Except Failure) := ⟨Except.mapError .refused⟩

instance : MonadLift (Except Fault) (Except Failure) := ⟨Except.mapError .faulted⟩

end EpochConsensus
