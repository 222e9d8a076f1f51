import EpochConsensus.Application
import EpochConsensus.Ed25519
import EpochConsensus.Network
import EpochConsensus.Verifier

/-! # Clusters

A whole system in one value: replicas on a network in memory, each with an application of its own,
and their timers on one clock.  Everything happens in a fixed order: messages are taken round by
round, timers fire by deadline, and the clock moves only when one fires.
-/
namespace EpochConsensus

/-! ### Signers -/

/-- How a member of a cluster signs. -/
inductive Signer where
  /-- With its number on the statement, in place of a signature. -/
  | mark (process : ProcessId)
  | ed25519 (key : Ed25519.SigningKey)

namespace Signer

def sign : Signer → Bytes → Signature
  | mark process, bytes =>
    ⟨.fit 64 ((Octets.fit 62 bytes).toList ++ littleEndian 2 (process.toNat + 1))⟩
  | ed25519 key, bytes => key.sign bytes

/-- The seed of a member's key. -/
def seed (process : ProcessId) : Octets 32 :=
  ⟨(littleEndian 2 process.toNat).reverse ++ (List.replicate 29 0 ++ [0xA1]), by simp⟩

/-- The key of a member. -/
def memberKey (process : ProcessId) : Ed25519.SigningKey := .ofSeed (seed process)

end Signer

/-! ### Members -/

/-- A replica with what belongs to it alone. -/
structure Member where
  replica : Replica
  application : Application
  signer : Signer
  /-- Checks what the replica receives; without one, messages are only decoded. -/
  verifier : Option (Verifier Ed25519.PublicKey)

namespace Member

/-- An application for values, and timers that are always taken on. -/
def services (m : Member) : Services Application where
  nextValue := Application.nextValue
  accepts := fun _ a => (true, a)
  sign := m.signer.sign

/-- Reads what was received. -/
def readMessage (m : Member) (bytes : Bytes) : Except Rejection Message × Member :=
  match m.verifier with
  | none => (Message.decode bytes, m)
  | some v =>
    let (result, v) := v.verify Ed25519.PublicKey.verify bytes
    (result, { m with verifier := some v })

end Member

/-- A requested timeout with its deadline and the member that requested it. -/
structure Alarm where
  deadline : Millis
  process : ProcessId
  timeout : Timeout
deriving DecidableEq

/-- Replicas on one network and one clock. -/
structure Cluster where
  members : Array Member
  network : Network
  now : Millis
  /-- The timers that are pending, in the order in which they were requested. -/
  alarms : Array Alarm
  /-- How many received messages were refused. -/
  rejected : Nat

namespace Cluster

/-- A cluster of `count` members before any call.  Each member's replica is set up before its
verifier. -/
def create (count : Nat) (config : Config) (authentic verified : Bool) :
    Except Failure Cluster := do
  let network ← Network.create count
  let ids := (List.range count).map UInt16.ofNat
  let table := if verified then
      ids.filterMap fun p => Ed25519.PublicKey.ofBytes? (Signer.memberKey p).publicKey
    else []
  let members ← ids.mapM fun p => do
    let replica ← Replica.create p count config
    let verifier ←
      if verified then some <$> Verifier.create table config.verifierCacheSize else pure none
    return {
      replica
      application := .generating p
      signer := if authentic then .ed25519 (Signer.memberKey p) else .mark p
      verifier : Member }
  return ⟨members.toArray, network, 0, #[], 0⟩

variable (c : Cluster)

/-- Carries out what a member did. -/
def perform (process : ProcessId) : Action → Cluster
  | .send e => { c with network := c.network.send e.sender e.bytes e.recipients }
  | .request t accepted =>
    if accepted then { c with alarms := c.alarms.push ⟨c.now + t.duration, process, t⟩ } else c
  | .deliver epoch b =>
    { c with members := c.members.modify process.toNat fun m =>
        { m with application := m.application.deliver epoch b } }

/-- Runs a call on one member. -/
def call (process : ProcessId)
    (run : Services Application → Replica → Application → Except Fault (Turn Application)) :
    Except Fault Cluster :=
  match c.members[process.toNat]? with
  | none => .ok c
  | some m => do
    let t ← run m.services m.replica m.application
    let m := { m with replica := t.replica, application := t.world }
    let c := { c with members := c.members.modify process.toNat fun _ => m }
    return t.actions.foldl (fun c a => c.perform process a) c

def processes : List ProcessId := (List.range c.members.size).map UInt16.ofNat

/-- Starts every member. -/
def bootstrap : Except Fault Cluster :=
  c.processes.foldlM (fun c p => c.call p fun s r w => r.bootstrap s w) c

/-! ### Messages -/

/-- Lets a member handle bytes that it received. -/
def receive (process : ProcessId) (bytes : Bytes) : Except Fault Cluster :=
  match c.members[process.toNat]? with
  | none => .ok c
  | some m =>
    let (result, m) := m.readMessage bytes
    let c := { c with members := c.members.modify process.toNat fun _ => m }
    match result with
    | .error _ => .ok { c with rejected := c.rejected + 1 }
    | .ok message => c.call process fun s r w => r.handleMessage s message w

/-- Lets each of the processes handle one message, as long as fewer than `limit` are `taken`. -/
def pumpRound (limit : Nat) :
    List ProcessId → (taken : Nat) → Cluster → Except Fault (Nat × Cluster)
  | [], taken, c => .ok (taken, c)
  | p :: ps, taken, c =>
    if limit ≤ taken then .ok (taken, c)
    else match c.network.take? p with
      | none => pumpRound limit ps taken c
      | some (bytes, network) => do
        pumpRound limit ps (taken + 1) (← { c with network }.receive p bytes)

/-- Up to `rounds` rounds, until one finds nothing. -/
def pumpRounds (limit : Nat) :
    (rounds : Nat) → (taken : Nat) → Cluster → Except Fault (Nat × Cluster)
  | 0, taken, c => .ok (taken, c)
  | rounds + 1, taken, c => do
    let (now, c) ← pumpRound limit c.processes taken c
    if now = taken then return (now, c) else pumpRounds limit rounds now c

/-- Handles messages round by round, until none is left or `limit` are taken; the number taken. -/
def pump (limit : Nat) : Except Fault (Nat × Cluster) := pumpRounds limit (limit + 1) 0 c

/-- Drops what waits at a process, and says how much it was. -/
def lose (process : ProcessId) : Nat × Cluster :=
  ((c.network.inbox process).length, { c with network := c.network.setInbox process [] })

/-! ### Timers -/

/-- Of an alarm and a later request, the one that fires first. -/
def sooner (a : Option Alarm) (b : Alarm) : Option Alarm :=
  match a with
  | none => some b
  | some a => if b.deadline < a.deadline then some b else some a

/-- The first of the pending alarms with the earliest deadline. -/
def earliest? : Option Alarm := c.alarms.foldl sooner none

/-- Fires the next timer, if one is pending. -/
def fire : Except Fault (Option Alarm × Cluster) :=
  match c.earliest? with
  | none => .ok (none, c)
  | some a => do
    let c := { c with alarms := c.alarms.erase a, now := max c.now a.deadline }
    return (some a, ← c.call a.process fun s r w => r.handleTimeout s a.timeout w)

/-- Up to `timers` times: handles messages, then fires a timer.  Ends when no timer is pending, and
handles messages once more.  The timers that fired, in their order. -/
def live (limit : Nat) : (timers : Nat) → Cluster → Except Fault (List Alarm × Cluster)
  | 0, c => do
    let (_, c) ← c.pump limit
    return ([], c)
  | timers + 1, c => do
    let (_, c) ← c.pump limit
    match ← c.fire with
    | (none, c) =>
      let (_, c) ← c.pump limit
      return ([], c)
    | (some a, c) =>
      let (fired, c) ← live limit timers c
      return (a :: fired, c)

end Cluster

end EpochConsensus
