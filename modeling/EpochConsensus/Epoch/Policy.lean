import EpochConsensus.Config

/-! # Policies

Honest and faulty processes run the same epochs; the policy says what a process does as proposer,
what it votes for, and whether it acts at all.
-/
namespace EpochConsensus

inductive Behavior where
  | honest
  /-- Proposes different blocks to the two halves of the processes, votes for every proposal and
  blames nobody. -/
  | equivocating
  /-- Never proposes and never reacts. -/
  | silent
deriving DecidableEq

structure Policy where
  behavior : Behavior
  /-- Whether a locked block is decided once every process has voted. -/
  fastPath : Bool
deriving DecidableEq

namespace Policy

/-- The policy of a process under a configuration. -/
def ofConfig (c : Config) (process : ProcessId) : Policy where
  behavior :=
    if !c.isByzantine process then .honest
    else match c.byzantineAttack with
      | .equivocation => .equivocating
      | .silent => .silent
  fastPath := c.fastPathEnabled

def isHonest (p : Policy) : Bool := p.behavior = .honest

def isSilent (p : Policy) : Bool := p.behavior = .silent

/-- Whether the process proposes two blocks at once. -/
def splits (p : Policy) : Bool := p.behavior = .equivocating

theorem isSilent_eq_false {p : Policy} (h : p.isHonest = true) : p.isSilent = false := by
  simp only [isHonest, decide_eq_true_eq] at h
  simp [isSilent, h]

theorem splits_eq_false {p : Policy} (h : p.isHonest = true) : p.splits = false := by
  simp only [isHonest, decide_eq_true_eq] at h
  simp [splits, h]

end Policy

end EpochConsensus
