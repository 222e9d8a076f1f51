import EpochConsensus.Message.Wire

/-! # Verification of received messages

A verifier decodes bytes and checks every signature in the message against a table of public keys.
Signatures that it found valid are remembered, the most recently used ones first, up to a capacity.
The check of a single signature is a parameter.
-/
namespace EpochConsensus

/-- A table of public keys, and the signatures lately found valid. -/
structure Verifier (κ : Type) where
  keys : List κ
  capacity : Nat
  /-- The most recently used first. -/
  cache : List Endorsement

namespace Verifier

variable {κ : Type}

/-- A verifier that has seen nothing; it remembers at least one signature. -/
def empty (keys : List κ) (capacity : Nat) : Verifier κ := ⟨keys, max 1 capacity, []⟩

/-- A verifier that has seen nothing, unless it is to remember too much. -/
def create (keys : List κ) (capacity : Nat) : Except Fault (Verifier κ) :=
  if slotLimit < capacity then .error .oversizedCache else .ok (empty keys capacity)

variable (check : κ → Bytes → Signature → Bool) (v : Verifier κ)

/-- The verifier after a use of a valid signature. -/
def remember (e : Endorsement) : Verifier κ :=
  { v with cache := (e :: v.cache.erase e).take v.capacity }

/-- Checks one signature. -/
def checkOne (e : Endorsement) : Except Rejection (Verifier κ) :=
  if e ∈ v.cache then .ok (v.remember e)
  else match v.keys[e.signer.toNat]? with
    | none => .error (.unknownSigner e.signer)
    | some key =>
      if check key e.statement.payload e.signature then .ok (v.remember e)
      else .error (.badSignature e.signer)

/-- Checks signatures up to the first that fails; those before it are remembered. -/
def checkAll (v : Verifier κ) : List Endorsement → Except Rejection Unit × Verifier κ
  | [] => (.ok (), v)
  | e :: es =>
    match v.checkOne check e with
    | .ok v => checkAll v es
    | .error r => (.error r, v)

/-- The message in some bytes, if they decode and every signature in it is valid. -/
def verify (bytes : Bytes) : Except Rejection Message × Verifier κ :=
  match Message.decode bytes with
  | .error r => (.error r, v)
  | .ok m =>
    match v.checkAll check m.endorsements with
    | (.ok (), v) => (.ok m, v)
    | (.error r, v) => (.error r, v)

/-- The messages in a stream of bytes, without those that are refused. -/
def verifyStream (v : Verifier κ) : List Bytes → List Message × Verifier κ
  | [] => ([], v)
  | bytes :: rest =>
    match v.verify check bytes with
    | (.ok m, v) =>
      let (ms, v) := verifyStream v rest
      (m :: ms, v)
    | (.error _, v) => verifyStream v rest

/-- The verifier after a stream of bytes whose messages nobody takes: it ends with the first
message that is not refused. -/
def verifyUntilTaken (v : Verifier κ) : List Bytes → Verifier κ
  | [] => v
  | bytes :: rest =>
    match v.verify check bytes with
    | (.ok _, v) => v
    | (.error _, v) => verifyUntilTaken v rest

/-- Passes the messages of a stream on through a queue of this capacity.  When nobody takes them,
none is passed on. -/
def relay (v : Verifier κ) (capacity : Nat) (taken : Bool) (stream : List Bytes) :
    Except Fault (List Message × Verifier κ) := do
  let _ ← queueCapacity capacity
  if taken then return v.verifyStream check stream
  else return ([], v.verifyUntilTaken check stream)

end Verifier

end EpochConsensus
