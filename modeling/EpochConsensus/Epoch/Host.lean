import EpochConsensus.Epoch.Machine.State

/-! # The host of an epoch

An epoch acts through its host, the process that runs it.  A `Host` says who and how many the
processes are, who proposes when, and how questions are answered; answers may depend on a state `σ`
and may change it.  What an epoch sends, asks and announces is recorded as an `Effect`, in order and
with the state in which it happened (`Moment`), and nothing of it comes back into the epoch except
the answers.
-/
namespace EpochConsensus

/-- Something that an epoch does through its host. -/
inductive Effect where
  /-- Sign, if this process is the author, and send to every process. -/
  | broadcast (m : Message)
  /-- Pass on to every other process. -/
  | forward (m : Message)
  /-- Sign, if this process is the author, and send to these processes. -/
  | send (m : Message) (recipients : List ProcessId)
  | request (t : Timeout) (accepted : Bool)
  | takeValue (value : Option Bytes)
  | addBlock (id : BlockId) (added : Bool)
  | decide (epoch : Epoch) (b : Block)
  /-- The certificates for the next epoch can no longer change. -/
  | finish (epoch : Epoch) (valid locked : Option Certificate)
deriving DecidableEq

/-- The process that runs an epoch. -/
structure Host (σ : Type) where
  id : ProcessId
  /-- The number of processes. -/
  count : Nat
  proposer : Epoch → Except Fault ProcessId
  patience : TimeoutKind → Millis
  /-- Whether a timeout was taken on; a refused one is requested again later. -/
  accepts : Timeout → σ → Bool × σ
  /-- The next value to propose, if there is one. -/
  nextValue : σ → Option Bytes × σ
  addBlock : Block → σ → Except Fault (Bool × σ)
  /-- Whether a block may be committed on top of what is committed. -/
  extendsChain : Block → σ → Bool

/-- The process whose turn it is, when `count` processes take turns. -/
def rotation (count : Nat) (epoch : Epoch) : Except Fault ProcessId :=
  UInt16.ofNat <$> remainder epoch.toNat count

/-- The processes from `first` up to but not including `last`. -/
def processRange (first last : ProcessId) : List ProcessId :=
  (List.range (last.toNat - first.toNat)).map fun i => first + UInt16.ofNat i

/-- An effect with the state in which it happened. -/
structure Moment (σ : Type) where
  effect : Effect
  world : σ
  /-- The epoch that acted.  Questions to the host and latency probes are recorded without it. -/
  machine : Option Machine

/-- The state of the host during a call, and what the call has done so far. -/
structure Context (σ : Type) where
  world : σ
  moments : Array (Moment σ)

namespace Context

variable {σ : Type}

/-- Before a call has done anything. -/
def start (world : σ) : Context σ := ⟨world, #[]⟩

/-- What the call has done, without the states. -/
def effects (c : Context σ) : Array Effect := c.moments.map (·.effect)

def record (c : Context σ) (m : Moment σ) : Context σ := { c with moments := c.moments.push m }

def emit (c : Context σ) (e : Effect) : Context σ := c.record ⟨e, c.world, none⟩

end Context

/-- A machine in the middle of a call. -/
structure Step (σ : Type) extends Context σ where
  machine : Machine

namespace Step

variable {σ : Type} (s : Step σ)

def emit (e : Effect) : Step σ :=
  { s with toContext := s.toContext.record ⟨e, s.world, some s.machine⟩ }

def enter (phase : Phase) : Step σ := { s with machine.phase := phase }

@[simp] theorem emit_machine (e : Effect) : (s.emit e).machine = s.machine := rfl

@[simp] theorem emit_world (e : Effect) : (s.emit e).world = s.world := rfl

@[simp] theorem emit_moments (e : Effect) :
    (s.emit e).moments = s.moments.push ⟨e, s.world, some s.machine⟩ := rfl

/-- Passes on several ballots. -/
def forwardAll (bs : List Ballot) : Step σ := bs.foldl (fun s b => s.emit (.forward b.toMessage)) s

@[simp] theorem forwardAll_machine (bs : List Ballot) : (s.forwardAll bs).machine = s.machine := by
  induction bs generalizing s with
  | nil => rfl
  | cons b bs ih => exact ih _

@[simp] theorem forwardAll_world (bs : List Ballot) : (s.forwardAll bs).world = s.world := by
  induction bs generalizing s with
  | nil => rfl
  | cons b bs ih => exact ih _

@[simp] theorem forwardAll_moments (bs : List Ballot) :
    (s.forwardAll bs).moments =
      s.moments ++ (bs.map fun b => ⟨.forward b.toMessage, s.world, some s.machine⟩).toArray := by
  induction bs generalizing s with
  | nil => simp [forwardAll]
  | cons b bs ih =>
    show ((s.emit (.forward b.toMessage)).forwardAll bs).moments = _
    rw [ih]
    simp

end Step

namespace Host

variable {σ : Type} (p : Host σ) (c : Context σ)

/-- Takes the next value to propose. -/
def takeValue : Option Bytes × Context σ :=
  let (value, world) := p.nextValue c.world
  (value, { c with world }.emit (.takeValue value))

/-- Requests a timeout. -/
def request (t : Timeout) : Bool × Context σ :=
  let (accepted, world) := p.accepts t c.world
  (accepted, { c with world }.emit (.request t accepted))

/-- Hands a block to the store. -/
def store (b : Block) : Except Fault (Bool × Context σ) := do
  let (added, world) ← p.addBlock b c.world
  return (added, { c with world }.emit (.addBlock b.id added))

end Host

end EpochConsensus
