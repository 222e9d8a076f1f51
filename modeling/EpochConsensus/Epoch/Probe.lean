import EpochConsensus.Epoch.Host

/-! # Latency probes

In place of consensus, a replica can measure how long messages take.  A probe goes from process to
process in the order of their ids: each answer to a request leads to the next request.
-/
namespace EpochConsensus

/-- The measurement of one epoch. -/
structure Probe where
  epoch : Epoch
  started : Bool
  stopped : Bool
deriving DecidableEq

namespace Probe

def create (epoch : Epoch) : Probe := ⟨epoch, false, false⟩

variable {σ : Type} (p : Host σ)

/-- Sends a request with the next value as its load, or without any. -/
def request (q : ProcessId) (c : Context σ) : Context σ :=
  let (value, c) := p.takeValue c
  c.emit (.send (.probe ⟨value.getD [], p.id⟩) [q])

/-- Starts with a request to this process itself. -/
def start (probe : Probe) (c : Context σ) : Probe × Context σ :=
  ({ probe with started := true }, request p p.id c)

/-- Answers a request, and follows an answer with a request to the process after its sender. -/
def receive (m : Message) (c : Context σ) : Except Fault (Context σ) :=
  match m with
  | .probe e => .ok (c.emit (.send (.answer ⟨e.payload, p.id⟩) [e.sender]))
  | .answer e => do
    let next ← remainder (e.sender.toNat + 1) p.count
    return request p (UInt16.ofNat next) c
  | _ => .ok c

def stop (probe : Probe) : Probe := { probe with stopped := true }

end Probe

end EpochConsensus
