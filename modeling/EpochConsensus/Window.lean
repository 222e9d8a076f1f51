import EpochConsensus.Epoch.Instance

/-! # The window of epochs

Epoch `e` lives in slot `e mod capacity`.  Epochs start one after the other, and at most `capacity`
of them are started and not yet decided.  An epoch that is not started has an instance as soon as a
message for it arrives, so that early messages are kept, unless the slot belongs to a later epoch
or to one that is started and undecided.
-/
namespace EpochConsensus

/-- The epochs that a process keeps. -/
structure Window where
  capacity : Nat
  slots : Vector (Option Instance) capacity
  /-- The first epoch that is not started any more; zero for none. -/
  maxEpochToStart : Nat
  /-- The last epoch that was started, or refused by the limit. -/
  lastEpoch : Option Epoch
  lastDecided : Option Epoch
  factory : Factory
deriving DecidableEq

namespace Window

def ofConfig (c : Config) (process : ProcessId) : Window where
  capacity := c.maxActiveEpochs
  slots := .replicate _ none
  maxEpochToStart := c.maxEpochToStart
  lastEpoch := none
  lastDecided := none
  factory := .ofConfig c process

/-- The window before any epoch, unless it has too many slots. -/
def create (c : Config) (process : ProcessId) : Except Fault Window := do
  let _ ← slotCount c.maxActiveEpochs
  return ofConfig c process

/-- The number of epochs up to and including this one. -/
def upTo : Option Epoch → Nat
  | none => 0
  | some e => e.toNat + 1

variable (w : Window)

/-- The number of epochs that are started and not decided. -/
def active : Nat := upTo w.lastEpoch - upTo w.lastDecided

/-- No further epoch can start before one is decided. -/
def isFull : Bool := w.capacity ≤ w.active

/-- Whether no decision covers an epoch. -/
def isUndecided (e : Epoch) : Bool := upTo w.lastDecided ≤ e.toNat

/-- Started and not decided. -/
def isLive (e : Epoch) : Bool := w.isUndecided e && e.toNat < upTo w.lastEpoch

/-- The epoch after the last one. -/
def nextEpoch : Except Fault Epoch :=
  match w.lastEpoch with
  | none => .ok 0
  | some e => successor e

/-- The slot of an epoch. -/
def index (e : Epoch) : Except Fault (Fin w.capacity) :=
  if h : 0 < w.capacity then .ok ⟨e.toNat % w.capacity, Nat.mod_lt _ h⟩ else .error .zeroModulus

/-- The instance of an epoch, if there is one. -/
def instance? (e : Epoch) : Except Fault (Option Instance) := do
  let i ← w.index e
  return (w.slots.get i).filter (·.epoch == e)

/-- The window with an instance in the slot of its epoch. -/
def put (inst : Instance) : Except Fault Window := do
  let i ← w.index inst.epoch
  return { w with slots := w.slots.set i.val (some inst) i.isLt }

/-- The instance that messages of an epoch go to, made where the slot is free or out of date.  It
is not yet put into the window. -/
def claim? (e : Epoch) : Except Fault (Option Instance) := do
  let i ← w.index e
  match w.slots.get i with
  | none => return some (w.factory.create e)
  | some occupant =>
    if occupant.epoch = e then return some occupant
    else if e < occupant.epoch || w.isLive occupant.epoch then return none
    else return some (w.factory.create e)

variable {σ : Type} (p : Host σ)

/-- Starts the next epoch and says whether it did: not when the window is full or the limit is
reached. -/
def startNext (valid locked : Option Certificate) (c : Context σ) :
    Except Fault (Window × Context σ × Bool) := do
  if w.isFull then return (w, c, false)
  let epoch ← w.nextEpoch
  let w := { w with lastEpoch := some epoch }
  if 0 < w.maxEpochToStart && w.maxEpochToStart ≤ epoch.toNat then return (w, c, false)
  let inst := (← w.instance? epoch).getD (w.factory.create epoch)
  let (inst, c) ← inst.start p valid locked c
  return (← w.put inst, c, true)

/-- Stops every undecided epoch up to a decided one, and says whether the decision is new. -/
def finishEpoch (e : Epoch) : Except Fault (Window × Bool) := do
  if !w.isUndecided e then return (w, false)
  let _ ← w.index e
  let close (i : Instance) : Instance := if w.isUndecided i.epoch && i.epoch ≤ e then i.stop else i
  return ({ w with slots := w.slots.map (Option.map close), lastDecided := some e }, true)

end Window

end EpochConsensus
