import EpochConsensus.Timeout

/-! # The timeout scheduler

Requested timeouts wait for their deadlines behind a single timer, which is armed for the earliest
of them, and for a minute ahead when nothing waits.  `Scheduler` is the step from one wake-up to
the next over any clock; `Timekeeper` puts it between two bounded queues on a clock that moves only
when it is told to.
-/
namespace EpochConsensus

/-- Timeouts that wait for their deadlines. -/
structure Scheduler where
  /-- Deadlines and timeouts, in the order in which they were seen. -/
  pending : List (Millis × Timeout)
  /-- When the timer goes off next. -/
  armed : Millis
deriving DecidableEq

namespace Scheduler

/-- How far ahead the timer is armed when nothing waits. -/
def idle : Millis := 60000

/-- Nothing waits at the start. -/
def start (now : Millis) : Scheduler := ⟨[], now + idle⟩

variable (s : Scheduler)

/-- Takes on a request: its duration runs from now. -/
def accept (now : Millis) (t : Timeout) : Scheduler where
  pending := s.pending ++ [(now + t.duration, t)]
  armed := min s.armed (now + t.duration)

/-- When the timer is armed for after a wake-up. -/
def nextDeadline (now : Millis) : Millis :=
  s.pending.foldl (fun d e => min d e.1) (now + idle)

/-- The timeouts that are due, in the order in which they were seen. -/
def due (now : Millis) : List Timeout := (s.pending.filter fun e => e.1 ≤ now).map (·.2)

/-- Gives out what is due and arms the timer again. -/
def wake (now : Millis) : List Timeout × Scheduler :=
  let rest : Scheduler := { s with pending := s.pending.filter fun e => ¬ e.1 ≤ now }
  (s.due now, { rest with armed := rest.nextDeadline now })

end Scheduler

/-! ### Queues and a clock -/

/-- A scheduler with its queues. -/
structure Timekeeper where
  /-- How many timeouts each queue holds. -/
  capacity : Nat
  now : Millis
  /-- The requests that the scheduler has not seen yet. -/
  requests : List Timeout
  scheduler : Scheduler
  /-- The timeouts that fired and were not taken yet. -/
  fired : List Timeout
  /-- Whether the output queue takes what fires. -/
  attended : Bool
  /-- Whether the scheduler still runs. -/
  running : Bool
deriving DecidableEq

namespace Timekeeper

/-- A scheduler that has just started, with queues for `capacity` timeouts each. -/
def create (capacity : Nat) : Except Fault Timekeeper := do
  return ⟨← queueCapacity capacity, 0, [], .start 0, [], true, true⟩

variable (k : Timekeeper)

/-- Queues a request and says whether there was room for it. -/
def schedule (t : Timeout) : Timekeeper × Bool :=
  if k.running && k.requests.length < k.capacity then
    ({ k with requests := k.requests ++ [t] }, true)
  else (k, false)

/-- Lets the scheduler see the requests that wait. -/
def see : Timekeeper :=
  { k with
    requests := []
    scheduler := k.requests.foldl (fun s t => s.accept k.now t) k.scheduler }

/-- Puts a timeout that fired into the output queue, or loses it when that is full or closed. -/
def publish (t : Timeout) : Timekeeper :=
  if k.attended && k.fired.length < k.capacity then { k with fired := k.fired ++ [t] } else k

/-- Wakes the scheduler now. -/
def fire : Timekeeper :=
  let (due, scheduler) := k.scheduler.wake k.now
  { due.foldl publish k with scheduler }

/-- Wakes the scheduler at the moment that it is armed for. -/
def wake : Timekeeper := fire { k with now := max k.now k.scheduler.armed }

/-- Wakes the scheduler up to `rounds` times, as long as it is armed for `target` or before. -/
def wakeUntil : (rounds : Nat) → (target : Millis) → Timekeeper → Timekeeper
  | 0, _, k => k
  | rounds + 1, target, k =>
    if k.scheduler.armed ≤ target then wakeUntil rounds target k.wake else k

/-- Moves the clock ahead and stops at every deadline on the way.  Each wake-up fires a timeout or
is a minute after the one before it, which bounds their number. -/
def sleep (ms : Millis) : Timekeeper :=
  let target := k.now + ms
  let k :=
    if k.running then
      let k := k.see
      wakeUntil (k.scheduler.pending.length + ms / Scheduler.idle + 2) target k
    else k
  { k with now := target }

/-- Lets the scheduler see what waits and fire what is due at once. -/
def settle : Timekeeper := k.sleep 0

/-- Takes the oldest timeout that fired. -/
def take : Option Timeout × Timekeeper :=
  match k.fired with
  | [] => (none, k)
  | t :: fired => (some t, { k with fired })

/-- Takes every timeout that fired. -/
def drain : List Timeout × Timekeeper := (k.fired, { k with fired := [] })

/-- Closes the output queue; what is in it can still be taken. -/
def leave : Timekeeper := { k with attended := false }

/-- Ends the scheduler; what has not fired is lost. -/
def close : Timekeeper := { k.settle with running := false }

end Timekeeper

end EpochConsensus
