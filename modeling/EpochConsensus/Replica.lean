import EpochConsensus.Chain
import EpochConsensus.Message.Wire
import EpochConsensus.Window

/-! # Replicas

A replica is one participant: the window of its epochs, the store of its blocks, and the services
that it relies on.  Each call (`bootstrap`, `handleMessage`, `handleTimeout`) runs one epoch and
then settles what came of it: a decision commits and delivers blocks and lets a start that waited
for room go ahead; the end of the last epoch starts the next one, or defers the start while the
window is full.  Settling may start epochs that end at once on messages they kept, and so goes on
until nothing is left.
-/
namespace EpochConsensus

/-- What a replica relies on; its answers may depend on a state `τ` and may change it. -/
structure Services (τ : Type) where
  /-- The application's next value to propose. -/
  nextValue : τ → Option Bytes × τ
  /-- Whether a request for a timeout was taken on. -/
  accepts : Timeout → τ → Bool × τ
  /-- The replica's signature on some bytes. -/
  sign : Bytes → Signature

/-- Where bytes go. -/
inductive Recipients where
  | all
  | only (processes : List ProcessId)
deriving DecidableEq

/-- A message on its way. -/
structure Envelope where
  sender : ProcessId
  recipients : Recipients
  message : Message
deriving DecidableEq

/-- The bytes that go over the network. -/
def Envelope.bytes (e : Envelope) : Bytes := e.message.encode

/-- Something that a replica does. -/
inductive Action where
  | send (e : Envelope)
  | request (t : Timeout) (accepted : Bool)
  /-- Hand a committed block to the application. -/
  | deliver (epoch : Epoch) (b : Block)
deriving DecidableEq

/-- What an epoch leaves for the replica to settle. -/
inductive Outcome where
  | decided (epoch : Epoch) (b : Block)
  | finished (epoch : Epoch) (valid locked : Option Certificate)
deriving DecidableEq

def Outcome.ofEffect? : Effect → Option Outcome
  | .decide epoch b => some (decided epoch b)
  | .finish epoch valid locked => some (finished epoch valid locked)
  | _ => none

/-- One participant. -/
structure Replica where
  id : ProcessId
  /-- The number of processes. -/
  count : Nat
  config : Config
  chain : Chain
  window : Window
  /-- A start that waits for a decision to make room in the window. -/
  deferred : Option Carried
deriving DecidableEq

namespace Replica

/-- The replica of a process in a system of `count`, before any call. -/
def create (id : ProcessId) (count : Nat) (config : Config) : Except Failure Replica := do
  config.validate
  if count ≤ id.toNat then throw (.refused (.config (.outside id count)))
  let window ← Window.create config id
  let chain ← Chain.create config.blockchainSize
  return { id, count, config, chain, window, deferred := none }

variable {τ : Type} (services : Services τ)

/-- The replica as the host of its epochs. -/
def host (r : Replica) : Host (Chain × τ) where
  id := r.id
  count := r.count
  proposer := rotation r.count
  patience := r.config.patience
  accepts := fun t (chain, world) =>
    if r.config.scheduleTimeouts then
      let (accepted, world) := services.accepts t world
      (accepted, (chain, world))
    else (true, (chain, world))
  nextValue := fun (chain, world) =>
    let (value, world) := services.nextValue world
    (value, (chain, world))
  addBlock := fun b (chain, world) => do
    let (chain, added) ← chain.add b
    return (added, (chain, world))
  extendsChain := fun b (chain, _) => chain.extendsChain b

/-- The message with this replica's signature, if the replica is its author. -/
def sign (r : Replica) (m : Message) : Message :=
  match m.statementBy? r.id with
  | some s => m.withSignature (services.sign s.payload)
  | none => m

/-- The processes other than this one. -/
def others (r : Replica) : List ProcessId :=
  (processRange 0 (UInt16.ofNat r.count)).filter (· ≠ r.id)

/-- What an effect of an epoch amounts to outside the replica. -/
def action? (r : Replica) : Effect → Option Action
  | .broadcast m => some (.send ⟨r.id, .all, r.sign services m⟩)
  | .forward m => some (.send ⟨r.id, .only r.others, m⟩)
  | .send m recipients => some (.send ⟨r.id, .only recipients, r.sign services m⟩)
  | .request t accepted => if r.config.scheduleTimeouts then some (.request t accepted) else none
  | _ => none

end Replica

/-! ### Calls -/

/-- What is kept of a call for the record: the starts of epochs, and what they did. -/
inductive Record (τ : Type) where
  | started (epoch : Epoch) (carried : Carried)
  /-- An epoch did something; `decided` is the last epoch that was decided then. -/
  | acted (decided : Option Epoch) (moment : Moment (Chain × τ))

/-- A replica in the middle of a call: what it has done so far, in this call and in those before it
that are looked at together, and the outcomes not yet settled, oldest first. -/
structure Turn (τ : Type) where
  replica : Replica
  world : τ
  actions : Array Action
  records : List (Record τ)
  outcomes : List Outcome

namespace Turn

variable {τ : Type} (services : Services τ) (t : Turn τ)

def start (r : Replica) (world : τ) : Turn τ := ⟨r, world, #[], [], []⟩

/-- The context in which an epoch of the replica is called. -/
def context : Context (Chain × τ) := .start (t.replica.chain, t.world)

/-- Takes over the window and what an epoch did. -/
def absorb (w : Window) (c : Context (Chain × τ)) : Turn τ :=
  let effects := c.effects.toList
  { replica := { t.replica with window := w, chain := c.world.1 }
    world := c.world.2
    actions := t.actions ++ effects.filterMap (t.replica.action? services)
    records := t.records ++ c.moments.toList.map (.acted t.replica.window.lastDecided)
    outcomes := t.outcomes ++ effects.filterMap Outcome.ofEffect? }

/-- Runs an instance that belongs into the window, if there is one. -/
def call (inst : Option Instance)
    (run : Instance → Context (Chain × τ) → Except Fault (Instance × Context (Chain × τ))) :
    Except Fault (Turn τ) :=
  match inst with
  | none => .ok t
  | some inst => do
    let (inst, c) ← run inst t.context
    return t.absorb services (← t.replica.window.put inst) c

/-- Starts the epoch after the last one. -/
def startEpoch (carried : Carried) : Except Fault (Turn τ) := do
  let (w, c, started) ← t.replica.window.startNext (t.replica.host services)
    carried.valid carried.locked t.context
  let starts := if started then w.lastEpoch.toList.map (Record.started · carried) else []
  return { t with records := t.records ++ starts }.absorb services w c

/-- Starts the epoch after the last one, once the window has room for it. -/
def startOrDefer (carried : Carried) : Except Fault (Turn τ) :=
  if t.replica.window.isFull then .ok { t with replica.deferred := some carried }
  else t.startEpoch services carried

/-- Lets a deferred start go ahead. -/
def resume : Except Fault (Turn τ) :=
  match t.replica.deferred with
  | none => .ok t
  | some carried => { t with replica.deferred := none }.startOrDefer services carried

/-- Takes over the commit of a decided block and delivers what was committed, lowest first. -/
def deliver (epoch : Epoch) (w : Window) (chain : Chain) (committed : List Block) : Turn τ :=
  { t with
    replica := { t.replica with window := w, chain }
    actions := t.actions ++ committed.reverse.map (Action.deliver epoch) }

/-- Commits and delivers a decided block; then a deferred start goes ahead.  A decision that an
earlier one covers changes nothing. -/
def onDecided (epoch : Epoch) (b : Block) : Except Fault (Turn τ) := do
  let (w, isNew) ← t.replica.window.finishEpoch epoch
  if !isNew then return t
  let (chain, committed) ← t.replica.chain.commit b
  (t.deliver epoch w chain committed).resume services

def onOutcome : Outcome → Except Fault (Turn τ)
  | .decided epoch b => t.onDecided services epoch b
  | .finished epoch valid locked =>
    if t.replica.window.lastEpoch = some epoch then t.startOrDefer services ⟨valid, locked⟩
    else .ok t

/-- Settles up to `rounds` outcomes, with those that come up on the way. -/
def settleUpTo : (rounds : Nat) → Turn τ → Except Fault (Turn τ)
  | 0, t => .ok t
  | rounds + 1, t =>
    match t.outcomes with
    | [] => .ok t
    | o :: rest => do
      settleUpTo rounds (← { t with outcomes := rest }.onOutcome services o)

/-- Settles every outcome.  An epoch has at most two outcomes, and only epochs that kept messages
have any when they start; each of those is in a slot of its own, which bounds the rounds. -/
def settle : Except Fault (Turn τ) :=
  t.settleUpTo services (t.outcomes.length + 2 * t.replica.window.capacity + 2)

/-! ### One call after the other -/

/-- Starts the first epoch.  Later calls do nothing. -/
def bootstrap : Except Fault (Turn τ) := do
  let t := { t with outcomes := [] }
  if t.replica.window.lastEpoch.isSome then return t
  (← t.startEpoch services ⟨none, none⟩).settle services

/-- Hands a message to its epoch, or to the last started one if it belongs to none. -/
def handleMessage (m : Message) : Except Fault (Turn τ) :=
  let t := { t with outcomes := [] }
  match m.epoch? <|> t.replica.window.lastEpoch with
  | none => .ok t
  | some epoch => do
    let inst ← t.replica.window.claim? epoch
    (← t.call services inst (·.receive (t.replica.host services) m)).settle services

/-- Hands a timeout to its epoch, if that is there. -/
def handleTimeout (timeout : Timeout) : Except Fault (Turn τ) := do
  let t := { t with outcomes := [] }
  let inst ← t.replica.window.instance? timeout.epoch
  (← t.call services inst (·.expire (t.replica.host services) timeout)).settle services

end Turn

namespace Replica

variable {τ : Type} (services : Services τ)

/-- Starts the first epoch.  Later calls do nothing. -/
def bootstrap (r : Replica) (world : τ) : Except Fault (Turn τ) :=
  (Turn.start r world).bootstrap services

/-- Hands a message to its epoch, or to the last started one if it belongs to none. -/
def handleMessage (m : Message) (r : Replica) (world : τ) : Except Fault (Turn τ) :=
  (Turn.start r world).handleMessage services m

/-- Hands a timeout to its epoch, if that is there. -/
def handleTimeout (timeout : Timeout) (r : Replica) (world : τ) : Except Fault (Turn τ) :=
  (Turn.start r world).handleTimeout services timeout

end Replica

end EpochConsensus
