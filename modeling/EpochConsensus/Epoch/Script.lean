import EpochConsensus.Chain
import EpochConsensus.Epoch.Host

/-! # Scripted hosts

A host whose answers are laid down beforehand: the values to propose, whether timeouts are
taken on, and what the block store says, either by fixed answers or by a real store.
-/
namespace EpochConsensus

/-- Prepared answers. -/
structure Script where
  values : List Bytes
  /-- The store that answers for blocks, if there is one. -/
  chain : Option Chain
  /-- The answer to every new block without a store. -/
  add : Bool
  /-- The answer to whether a block extends the chain without a store. -/
  extend : Bool
  acceptTimeouts : Bool

namespace Script

def nextValue (s : Script) : Option Bytes × Script :=
  match s.values with
  | [] => (none, s)
  | v :: vs => (some v, { s with values := vs })

def addBlock (b : Block) (s : Script) : Except Fault (Bool × Script) :=
  match s.chain with
  | none => .ok (s.add, s)
  | some chain => do
    let (chain, added) ← chain.add b
    return (added, { s with chain := some chain })

def extendsChain (b : Block) (s : Script) : Bool :=
  match s.chain with
  | none => s.extend
  | some chain => chain.extendsChain b

/-- The host that gives the prepared answers.  Without a fixed proposer the processes take
turns. -/
def host (id : ProcessId) (count : Nat) (proposer : Option ProcessId)
    (patience : TimeoutKind → Millis) : Host Script where
  id
  count
  proposer := fun e => match proposer with
    | some p => .ok p
    | none => rotation count e
  patience
  accepts := fun _ s => (s.acceptTimeouts, s)
  nextValue := nextValue
  addBlock := addBlock
  extendsChain := extendsChain

end Script

end EpochConsensus
