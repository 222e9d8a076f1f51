import EpochConsensus.Message

/-! # Proposals of one epoch

The proposals received in an epoch, at most one for each block, in the order of their arrival.
-/
namespace EpochConsensus

/-- Proposals of distinct blocks. -/
structure Proposals where
  toList : List Proposal
deriving DecidableEq

namespace Proposals

def empty : Proposals := ⟨[]⟩

variable (s : Proposals)

/-- The proposal of a block. -/
def find? (id : BlockId) : Option Proposal := s.toList.find? fun p => p.block.id == id

def contains (id : BlockId) : Bool := (s.find? id).isSome

/-- The proposals with one more; the first proposal of a block stays. -/
def add (p : Proposal) : Proposals := if s.contains p.block.id then s else ⟨s.toList ++ [p]⟩

/-- The only proposal, if there is exactly one. -/
def single? : Option Proposal :=
  match s.toList with
  | [p] => some p
  | _ => none

theorem mem_find? {id : BlockId} {p : Proposal} (h : s.find? id = some p) :
    p ∈ s.toList ∧ p.block.id = id :=
  ⟨List.mem_of_find?_eq_some h, by simpa using List.find?_some h⟩

theorem mem_of_mem_add {p q : Proposal} (h : q ∈ (s.add p).toList) : q = p ∨ q ∈ s.toList := by
  unfold add at h
  split at h
  · exact .inr h
  · simpa [or_comm] using h

theorem mem_single? {p : Proposal} (h : s.single? = some p) : p ∈ s.toList := by
  unfold single? at h
  split at h
  · rename_i hs
    rw [hs]
    simpa using h.symm
  · cases h

/-- The proposed blocks. -/
def ids : List BlockId := s.toList.map (·.block.id)

end Proposals

end EpochConsensus
