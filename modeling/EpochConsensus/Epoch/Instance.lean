import EpochConsensus.Epoch.Machine
import EpochConsensus.Epoch.Probe

/-! # What runs in an epoch

An `Instance` is either an epoch of consensus or a latency probe; both are driven by the same
calls.  A `Factory` makes the instances of one process.
-/
namespace EpochConsensus

/-- What runs in one epoch at one process. -/
inductive Instance where
  | consensus (m : Machine)
  | probe (p : Probe)
deriving DecidableEq

namespace Instance

def epoch : Instance → Epoch
  | consensus m => m.epoch
  | probe p => p.epoch

def started : Instance → Bool
  | consensus m => m.started
  | probe p => p.started

def finished : Instance → Bool
  | consensus m => m.finished
  | probe p => p.stopped

def stop : Instance → Instance
  | consensus m => consensus m.stop
  | probe p => probe p.stop

variable {σ : Type} (p : Host σ)

/-- A call on a machine as a call on an instance. -/
def ofStep (r : Except Fault (Step σ)) : Except Fault (Instance × Context σ) := do
  let s ← r
  return (consensus s.machine, s.toContext)

def start (valid locked : Option Certificate) (i : Instance) (c : Context σ) :
    Except Fault (Instance × Context σ) :=
  match i with
  | consensus m => ofStep (p.start valid locked ⟨c, m⟩)
  | probe b =>
    let (b, c) := b.start p c
    .ok (probe b, c)

def receive (m : Message) (i : Instance) (c : Context σ) : Except Fault (Instance × Context σ) :=
  match i with
  | consensus machine => ofStep (p.receive m ⟨c, machine⟩)
  | probe b => do return (probe b, ← Probe.receive p m c)

def expire (t : Timeout) (i : Instance) (c : Context σ) : Except Fault (Instance × Context σ) :=
  match i with
  | consensus m => ofStep (p.expire t ⟨c, m⟩)
  | probe b => .ok (probe b, c)

end Instance

/-- Makes the instances of one process. -/
structure Factory where
  model : Model
  policy : Policy
  pendingLimit : Nat
deriving DecidableEq

namespace Factory

def ofConfig (c : Config) (process : ProcessId) : Factory :=
  ⟨c.model, .ofConfig c process, c.pendingMessagesLimit⟩

def create (f : Factory) (epoch : Epoch) : Instance :=
  match f.model with
  | .sync => .consensus (.create epoch f.policy f.pendingLimit)
  | .delta => .probe (.create epoch)

theorem epoch_create (f : Factory) (epoch : Epoch) : (f.create epoch).epoch = epoch := by
  unfold create; split <;> rfl

end Factory

end EpochConsensus
