import EpochConsensus.Replica

/-! # A network in memory

Every process has an inbox without a limit.  What an isolated process sends is dropped; what is
sent to a stopped process, or to one that does not exist, goes nowhere and is not counted.
-/
namespace EpochConsensus

/-- The inboxes of all processes. -/
structure Network where
  /-- The bytes that wait at each process, oldest first; none for a stopped process. -/
  inboxes : Array (Option (List Bytes))
  isolated : List ProcessId
  /-- How often bytes were put into an inbox. -/
  delivered : Nat
deriving DecidableEq

namespace Network

/-- A network of `count` processes before anything is sent. -/
def create (count : Nat) : Except Fault Network := do
  let _ ← slotCount count
  return ⟨.replicate count (some []), [], 0⟩

variable (n : Network)

/-- The number of processes. -/
def count : Nat := n.inboxes.size

/-- What waits at a process. -/
def inbox (process : ProcessId) : List Bytes := (n.inboxes[process.toNat]?.join).getD []

/-- Drops from now on what a process sends. -/
def isolate (process : ProcessId) : Network := { n with isolated := process :: n.isolated }

def restore (process : ProcessId) : Network :=
  { n with isolated := n.isolated.filter (· ≠ process) }

/-- Ends a process; what waits for it is lost. -/
def stop (process : ProcessId) : Network :=
  { n with inboxes := n.inboxes.modify process.toNat fun _ => none }

/-- The network with another inbox for a process that runs. -/
def setInbox (process : ProcessId) (waiting : List Bytes) : Network :=
  { n with inboxes := n.inboxes.modify process.toNat fun i => i.map fun _ => waiting }

/-- Puts bytes into the inbox of one process. -/
def deliver (bytes : Bytes) (process : ProcessId) : Network :=
  match n.inboxes[process.toNat]? with
  | some (some waiting) =>
    { n.setInbox process (waiting ++ [bytes]) with delivered := n.delivered + 1 }
  | _ => n

/-- Sends bytes to each of the recipients in turn. -/
def send (sender : ProcessId) (bytes : Bytes) (recipients : Recipients) : Network :=
  if sender ∈ n.isolated then n
  else
    let processes := match recipients with
      | .all => processRange 0 (UInt16.ofNat n.count)
      | .only processes => processes
    processes.foldl (fun n p => n.deliver bytes p) n

/-- Takes the oldest bytes from an inbox. -/
def take? (process : ProcessId) : Option (Bytes × Network) :=
  match n.inbox process with
  | [] => none
  | bytes :: waiting => some (bytes, n.setInbox process waiting)

end Network

end EpochConsensus
