import EpochConsensus.Replica

/-! # Running a replica

A running replica takes one event at a time from its queues: a request to stop before anything
else, then timeouts, then messages.  It ends when it is told to stop, or with an error when a queue
is empty and can never be filled again; without anything to take it waits.
-/
namespace EpochConsensus

/-- The queues of a running replica. -/
structure Inbox where
  /-- Whether the replica was told to stop, or nobody is left to tell it. -/
  stopped : Bool
  timeouts : List Timeout
  /-- Whether more timeouts may come. -/
  timeoutsOpen : Bool
  messages : List Message
  /-- Whether more messages may come. -/
  messagesOpen : Bool

/-- What a running replica takes from its queues. -/
inductive Event where
  | stop
  | timeout (t : Timeout)
  | message (m : Message)
  /-- A queue is empty and closed. -/
  | closed (q : Queue)
  | nothing

namespace Inbox

/-- The number of events that wait. -/
def size (q : Inbox) : Nat := q.timeouts.length + q.messages.length

/-- The first event, and the queues without it. -/
def next (q : Inbox) : Event × Inbox :=
  if q.stopped then (.stop, q)
  else match q.timeouts, q.timeoutsOpen, q.messages, q.messagesOpen with
    | t :: timeouts, _, _, _ => (.timeout t, { q with timeouts })
    | [], false, _, _ => (.closed .timeouts, q)
    | [], true, m :: messages, _ => (.message m, { q with messages })
    | [], true, [], false => (.closed .messages, q)
    | [], true, [], true => (.nothing, q)

end Inbox

namespace Replica

variable {τ : Type} (services : Services τ)

/-- A running replica with everything that it has done. -/
structure Running (τ : Type) where
  replica : Replica
  world : τ
  actions : Array Action
  inbox : Inbox
  /-- How it ended, once it has. -/
  ended : Option (Except Rejection Unit)

namespace Running

/-- Takes over the result of a call. -/
def absorb (r : Running τ) (t : Turn τ) : Running τ :=
  { r with replica := t.replica, world := t.world, actions := r.actions ++ t.actions }

/-- Takes up to `rounds` events, until the replica ends or has to wait. -/
def runUpTo : (rounds : Nat) → Running τ → Except Fault (Running τ)
  | 0, r => .ok r
  | rounds + 1, r =>
    let (event, inbox) := r.inbox.next
    let r := { r with inbox }
    match event with
    | .stop => .ok { r with ended := some (.ok ()) }
    | .closed q => .ok { r with ended := some (.error (.closed q)) }
    | .nothing => .ok r
    | .timeout t => do
      runUpTo rounds (r.absorb (← r.replica.handleTimeout services t r.world))
    | .message m => do
      runUpTo rounds (r.absorb (← r.replica.handleMessage services m r.world))

/-- Runs until the replica ends or has to wait. -/
def run (r : Running τ) : Except Fault (Running τ) :=
  if r.ended.isSome then .ok r else r.runUpTo services (r.inbox.size + 1)

end Running

/-- Starts the first epoch, before any event. -/
def launch (r : Replica) (world : τ) (inbox : Inbox) : Except Fault (Running τ) := do
  let t ← r.bootstrap services world
  return ⟨t.replica, t.world, t.actions, inbox, none⟩

end Replica

end EpochConsensus
