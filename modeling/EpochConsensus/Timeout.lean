import EpochConsensus.Fault

/-! # Timeouts

An epoch asks to be woken for one of four reasons.  A `Timeout` is such a request, with the delay
in milliseconds after which it is due.
-/
namespace EpochConsensus

/-- A length of time in milliseconds. -/
abbrev Millis := Nat

/-- What an epoch waits for. -/
inductive TimeoutKind where
  /-- The proposer's block. -/
  | propose
  /-- Conflicting votes, before the locked block is decided. -/
  | equivocation
  /-- The end of an epoch that lost its proposer. -/
  | quitEpoch
  /-- The moment at which an equivocating proposer acts. -/
  | epochChange
deriving DecidableEq

namespace TimeoutKind

/-- Every kind, in the order in which refused requests are asked again. -/
def all : List TimeoutKind := [propose, equivocation, quitEpoch, epochChange]

theorem mem_all (k : TimeoutKind) : k ∈ all := by cases k <;> decide

/-- The position of a kind in `all`. -/
def index : TimeoutKind → Nat
  | propose => 0
  | equivocation => 1
  | quitEpoch => 2
  | epochChange => 3

def name : TimeoutKind → String
  | propose => "propose"
  | equivocation => "equivocation"
  | quitEpoch => "quit_epoch"
  | epochChange => "epoch_change"

end TimeoutKind

/-- A request to be woken, or the waking itself. -/
structure Timeout where
  epoch : Epoch
  kind : TimeoutKind
  duration : Millis
deriving DecidableEq

end EpochConsensus
