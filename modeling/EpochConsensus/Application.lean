import EpochConsensus.Block

/-! # Applications

An application proposes the values of its queue in their order, and once the queue is empty either
nothing or values of its own, `p<process>-<n>`.  It keeps what was delivered to it.
-/
namespace EpochConsensus

/-- An application fed by consensus. -/
structure Application where
  queue : List Bytes
  /-- The process in whose name values are made up, if any. -/
  generator : Option ProcessId
  /-- How many values were made up. -/
  generated : Nat
  delivered : List (Epoch × Block)
deriving DecidableEq

namespace Application

/-- An application that proposes these values and then nothing. -/
def ofValues (values : List Bytes) : Application := ⟨values, none, 0, []⟩

/-- An application that never runs out of values. -/
def generating (process : ProcessId) : Application := ⟨[], some process, 0, []⟩

variable (a : Application)

def push (value : Bytes) : Application := { a with queue := a.queue ++ [value] }

/-- The `n`-th value made up in the name of a process. -/
def madeUp (process : ProcessId) (n : Nat) : Bytes :=
  ("p" ++ toString process.toNat ++ "-" ++ toString n).toUTF8.toList

/-- Takes the next value to propose. -/
def nextValue : Option Bytes × Application :=
  match a.queue, a.generator with
  | value :: queue, _ => (some value, { a with queue })
  | [], none => (none, a)
  | [], some process =>
    let n := a.generated + 1
    (some (madeUp process n), { a with generated := n })

def deliver (epoch : Epoch) (b : Block) : Application :=
  { a with delivered := a.delivered ++ [(epoch, b)] }

/-- The number of delivered blocks. -/
def deliveredCount : Nat := a.delivered.length

end Application

end EpochConsensus
