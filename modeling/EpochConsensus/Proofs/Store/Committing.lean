import EpochConsensus.Proofs.Chain.Committing
import EpochConsensus.Proofs.Store.Refinement

/-! # What a commit leaves in the arena and in the slots

A commit goes down the links of the arena, delivers the blocks on the way, frees the slots of their
heights with all that is listed there, and moves the anchor up.  `Commits` says what is left: in
both parts exactly what is above the committed block, every entry with the link that it had.  Such
a link may lead to a block that is gone.  So a candidate that is kept is looked for along its links,
and extends the chain only if they run through the committed block.

The chain of a reachable store is `Tidy`, and a commit of the two parts is one of the chain
(`Coherent.commit`); what is said here of arena and slots is carried over from there.
-/
namespace EpochConsensus

namespace Store

variable {s s' : Store} {b x : Block} {bs : List Block} {key : BlockKey}

/-- The arena holds the block. -/
def Stores (s : Store) (x : Block) : Prop := s.get? x.height x.id = some x

/-- What a commit of `b` delivers (`bs`, highest first) and what it makes of the store. -/
structure Commits (s : Store) (b : Block) (s' : Store) (bs : List Block) : Prop where
  /-- The highest block delivered is the one that is named like `b`, and is the anchor now. -/
  newest : ∃ a, bs.head? = some a ∧ a.key = b.key ∧ s'.anchor = some a
  stored : ∀ x ∈ bs, s.Stores x
  descending : bs.IsChain fun upper lower => lower.Follows upper
  lowest : ∀ x ∈ bs.getLast?, Grounds s.anchor x
  /-- Of the arena is left what is above the committed block, and nothing else, -/
  arena : ∀ key, s'.arena.get? key =
    if key.1.toNat ≤ b.height.toNat then none else s.arena.get? key
  /-- and of the names in the slots as well. -/
  ids : ∀ k, s'.ids k = if k.toNat ≤ b.height.toNat then [] else s.ids k
  /-- A block extends the chain now if its stored predecessors led through `b`. -/
  links : ∀ x, s'.extendsChain x = true ↔ Leads s.Stores b.key x.key
  size : s'.size = s.size

namespace Coherent

theorem stores_chain (hs : s.Coherent) (hc : s.chain.Tidy) :
    s.chain.Stores x ↔ s.Stores x := by
  rw [hc.neat.stores_iff, hs.find?_chain, Stores, get?, Option.map_eq_some_iff]
  constructor
  · rintro ⟨d, hd, rfl⟩
    obtain ⟨e, he, rfl⟩ := Option.map_eq_some_iff.mp hd
    exact ⟨e, he, rfl⟩
  · rintro ⟨e, he, hblock⟩
    exact ⟨e.candidate, Option.map_eq_some_iff.mpr ⟨e, he, rfl⟩, hblock⟩

/-- An entry is kept, with its link, where the chain keeps the candidate. -/
theorem get?_of_find? (hs : s.Coherent) (hs' : s'.Coherent)
    (same : s'.chain.find? key = s.chain.find? key) : s'.arena.get? key = s.arena.get? key := by
  rw [hs'.find?_chain, hs.find?_chain] at same
  exact Option.map_injective (fun _ _ => StoredBlock.candidate_injective) same

/-- What the chain says of a commit, said of the two parts. -/
theorem commits (hs : s.Coherent) (hs' : s'.Coherent) (hc : s.chain.Tidy)
    (h : s.chain.Commits b s'.chain bs) : s.Commits b s' bs := by
  have hstores : s.chain.Stores = s.Stores := funext fun x => propext (hs.stores_chain hc)
  have harena : ∀ key, s'.arena.get? key =
      if key.1.toNat ≤ b.height.toNat then none else s.arena.get? key := by
    intro key
    by_cases hlow : key.1.toNat ≤ b.height.toNat
    · have hnone : s'.chain.find? key = none := by
        rw [Chain.find?, h.candidates, if_pos hlow]
        rfl
      rw [if_pos hlow]
      rwa [hs'.find?_chain, Option.map_eq_none_iff] at hnone
    · rw [if_neg hlow]
      refine hs.get?_of_find? hs' ?_
      rw [Chain.find?, h.candidates, if_neg hlow]
      rfl
  have hids : ∀ k, s'.ids k = if k.toNat ≤ b.height.toNat then [] else s.ids k := by
    intro k
    rw [← hs'.map_id_candidates, ← hs.map_id_candidates, h.candidates]
    split <;> rfl
  exact {
    newest := h.newest
    stored := fun x hx => (hs.stores_chain hc).mp (h.stored x hx)
    descending := h.descending
    lowest := h.lowest
    arena := harena
    ids := hids
    links := fun x => by rw [hs'.extendsChain_chain, ← hstores]; exact h.links x
    size := h.size }

end Coherent

/-- **A commit is exact.**  After any uses of a store, a commit fails exactly where the block does
not extend the committed chain.  A commit of the anchor delivers nothing and changes nothing.  Any
other one delivers the stored blocks from the highest one, which becomes the anchor, down to the
ground without a gap, drops the candidates up to the committed height and no others, and leaves
exactly those blocks linked whose stored predecessors led through the committed one. -/
theorem commit_exact {size : Nat} (size_pos : 0 < size) (uses : Uses (empty size size_pos) s)
    (b : Block) :
    ((∃ fault, s.commit b = .error fault) ↔ s.extendsChain b = false) ∧
    (s.anchorKey = some b.key → s.commit b = .ok (s, [])) ∧
    (s.anchorKey ≠ some b.key → s.extendsChain b = true →
      ∃ s' bs, s.commit b = .ok (s', bs) ∧ s.Commits b s' bs) := by
  obtain ⟨hs, huses⟩ := Uses.chain uses (coherent_empty size size_pos)
  rw [chain_empty] at huses
  have hc := (Chain.Uses.tidy huses (Chain.tidy_empty size size_pos)).1
  refine ⟨s.commit_error_iff b, fun hanchor => if_pos hanchor, fun new hextends => ?_⟩
  cases hcommit : s.commit b with
  | error fault =>
    rw [(s.commit_error_iff b).mp ⟨fault, hcommit⟩] at hextends
    cases hextends
  | ok result =>
    obtain ⟨s', bs⟩ := result
    have hrefines := hs.commit b
    rw [hcommit] at hrefines
    exact ⟨s', bs, rfl, hs.commits (hrefines.coherent _ _ rfl) hc
      (hc.commits new hrefines.same.symm)⟩

/-! ### A fork -/

/-- The store with these blocks added, one after the other. -/
def addAll (s : Store) : List Block → Except Fault Store
  | [] => .ok s
  | b :: bs => do
    let (s, _) ← s.add b
    addAll s bs

theorem uses_addAll (h : s.addAll bs = .ok s') : Uses s s' := by
  induction bs generalizing s with
  | nil =>
    cases h
    exact .refl
  | cons b bs ih =>
    obtain ⟨⟨u, added⟩, hadd, hrest⟩ := bind_eq_ok.mp h
    exact .head (.add hadd) (ih hrest)

open Chain (rootBlock leafBlock tipBlock sideBlock sideTipBlock)

/-- Two branches over one root, in three slots. -/
def forked : Except Fault Store :=
  (empty 3 (Nat.succ_pos 2)).addAll [rootBlock, sideTipBlock, leafBlock, tipBlock, sideBlock]

/-- A commit on one branch delivers it with the root and drops the other block of that height.  What
is above that block is kept, with a link to it, and is cut off. -/
theorem commit_exact_forked : ∃ s s' bs, Uses (empty 3 (Nat.succ_pos 2)) s ∧
    s.anchorKey ≠ some leafBlock.key ∧ s.extendsChain leafBlock = true ∧
    s.extendsChain sideTipBlock = true ∧ s.commit leafBlock = .ok (s', bs) ∧
    s.Commits leafBlock s' bs ∧ bs = [leafBlock, rootBlock] ∧
    s'.extendsChain tipBlock = true ∧ s'.extendsChain sideTipBlock = false ∧
    (s'.arena.get? sideTipBlock.key).any (·.parent = some sideBlock.key) = true ∧
    s'.holds sideBlock.key = false := by
  obtain ⟨s, hs, hfacts⟩ : ∃ s, forked = .ok s ∧
      (s.anchor.isNone && s.extendsChain leafBlock && s.extendsChain sideTipBlock,
        (s.commit leafBlock).toOption.map fun result =>
          (result.2, result.1.extendsChain tipBlock && !result.1.extendsChain sideTipBlock &&
            (result.1.arena.get? sideTipBlock.key).any (·.parent = some sideBlock.key) &&
              !result.1.holds sideBlock.key)) =
      (true, some ([leafBlock, rootBlock], true)) :=
    exists_of_toOption (by decide +kernel)
  simp only [Prod.mk.injEq, Bool.and_eq_true, Option.isNone_iff_eq_none] at hfacts
  obtain ⟨⟨⟨hanchor, hleaf⟩, hside⟩, hafter⟩ := hfacts
  have uses := uses_addAll hs
  have new : s.anchorKey ≠ some leafBlock.key := by simp [anchorKey, hanchor]
  obtain ⟨s', bs, hcommit, hcommits⟩ :=
    (commit_exact (Nat.succ_pos 2) uses leafBlock).2.2 new hleaf
  rw [hcommit] at hafter
  obtain ⟨hbs, htip, hcut, hlink, hgone⟩ : bs = [leafBlock, rootBlock] ∧
      s'.extendsChain tipBlock = true ∧ s'.extendsChain sideTipBlock = false ∧
      (s'.arena.get? sideTipBlock.key).any (·.parent = some sideBlock.key) = true ∧
      s'.holds sideBlock.key = false := by
    simpa [Except.toOption, and_assoc] using hafter
  exact ⟨s, s', bs, uses, new, hleaf, hside, hcommit, hcommits, hbs, htip, hcut, hlink, hgone⟩

end Store

end EpochConsensus
