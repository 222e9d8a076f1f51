import EpochConsensus.Config
import EpochConsensus.Proofs.Chain.Committing

/-! # Whether a store can grow

The window of a store reaches from above the anchor to less than `size` above it.  So the height
above the anchor is in it exactly when there is more than one slot (`inWindow_next_iff`), and then
the next block is admitted whatever forks and unlinked blocks are stored beside it, and is linked
to the anchor at once.  A store with a single slot has an empty window from its first commit on: no
use of it does anything any more (`Tidy.eq_of_use`).  `uses_grow` is both.
-/
namespace EpochConsensus

/-- A valid configuration has a slot for blocks. -/
theorem Config.blockchainSize_pos {config : Config} (valid : config.validate = .ok ()) :
    0 < config.blockchainSize :=
  pos_of_validate valid (f := .blockchainSize) (by simp [positive])

namespace Chain

variable {c d : Chain} {a b : Block}

/-! ### The next height -/

/-- The height above the anchor is in the window of every store but one with a single slot. -/
theorem inWindow_next_iff (anchored : c.anchor = some a)
    (height : b.height.toNat = a.height.toNat + 1) :
    c.inWindow b.height = true ↔ c.size ≠ 1 := by
  have hpos := c.size_pos
  rw [inWindow_iff]
  simp only [anchored]
  omega

/-- A block is new if it is not found and lies above the anchor. -/
theorem Neat.fresh_of_find? (hc : c.Neat) (anchored : c.anchor = some a)
    (above : a.height.toNat < b.height.toNat) (unknown : c.find? b.key = none) :
    c.anchorKey ≠ some b.key ∧ ∀ x, c.Stores x → x.key ≠ b.key := by
  constructor
  · intro hkey
    rw [anchorKey, anchored] at hkey
    have hheight : a.height = b.height := (Prod.mk.inj (Option.some.inj hkey)).1
    rw [hheight] at above
    exact Nat.lt_irrefl _ above
  · intro x hx hkey
    obtain ⟨e, he, -⟩ := hc.stores_iff.mp hx
    rw [hkey, unknown] at he
    cases he

/-- A block directly on the anchor extends the committed chain as soon as it is stored. -/
theorem Tidy.extendsChain_of_next (hc : c.Tidy) (anchored : c.anchor = some a)
    (height : b.height.toNat = a.height.toNat + 1) (names : b.parent = some a.id)
    (stored : c.Stores b) : c.extendsChain b = true := by
  have hwalk : c.Descends b.height.toNat b.id [b] :=
    height ▸ .step stored height names (.anchor anchored)
  exact hc.extendsChain_iff.mpr ⟨[b], hwalk⟩

/-- With more than one slot there is always room for the next block. -/
theorem Tidy.add_next (hc : c.Tidy) (wide : c.size ≠ 1) (anchored : c.anchor = some a)
    (low : a.height.toNat < UInt64.size - 2) (height : b.height.toNat = a.height.toNat + 1)
    (names : b.parent = some a.id) (unknown : c.find? b.key = none) :
    ∃ c', c.add b = .ok (c', true) ∧ c'.extendsChain b = true := by
  have hadmitted : c.Admits b := by
    refine ⟨hc.neat.fresh_of_find? anchored (by omega) unknown,
      (inWindow_next_iff anchored height).mpr wide, ?_⟩
    intro x hx _
    obtain rfl := Option.some.inj (anchored.symm.trans hx)
    exact names
  have hlow : b.height.toNat + 1 < UInt64.size := by
    rw [height]
    omega
  obtain ⟨c', hadd, -, -, hanchor, -⟩ := hc.neat.add_admitted hadmitted hlow
  have hstored : c'.Stores b := (hc.stores_add hadd).mpr (.inl rfl)
  exact ⟨c', hadd,
    (hc.add hadd).extendsChain_of_next (hanchor.trans anchored) height names hstored⟩

/-! ### A single slot -/

/-- No height is in the window of a single slot above an anchor. -/
theorem inWindow_single (single : c.size = 1) (anchored : c.anchor = some a) (height : Height) :
    ¬ c.inWindow height = true := by
  rw [inWindow_iff, anchored, single]
  simp only
  omega

namespace Tidy

/-- So a single slot above an anchor takes no block, -/
theorem add_single (hc : c.Tidy) (single : c.size = 1) (anchored : c.anchor = some a)
    (b : Block) : c.add b = .ok (c, false) :=
  hc.neat.add_refused fun admitted => inWindow_single single anchored b.height admitted.window

/-- and has nothing to commit. -/
theorem eq_of_commit_single (hc : c.Tidy) (single : c.size = 1) (anchored : c.anchor = some a)
    {bs : List Block} (h : c.commit b = .ok (d, bs)) : d = c := by
  rcases hc.commit_slots h with ⟨hsame, -⟩ | ⟨_, x, -, ⟨e, he, -⟩, -⟩
  · exact hsame
  · exact absurd (hc.neat.window_of_mem he) (inWindow_single single anchored x.height)

theorem eq_of_use (hc : c.Tidy) (single : c.size = 1) (anchored : c.anchor = some a)
    (h : Use c d) : d = c := by
  cases h with
  | @add b _ done =>
    rw [hc.add_single single anchored b] at done
    cases done
    rfl
  | commit done => exact hc.eq_of_commit_single single anchored done

/-- A store with a single slot stays for ever as its first commit left it. -/
theorem eq_of_uses (hc : c.Tidy) (single : c.size = 1) (anchored : c.anchor = some a)
    (uses : Uses c d) : d = c := by
  induction uses with
  | refl => rfl
  | tail _ last ih =>
    subst ih
    exact hc.eq_of_use single anchored last

end Tidy

/-! ### Growing -/

/-- **A store can always grow, unless it has a single slot.**  After any uses of a store that a
valid configuration gives, a block directly on the anchor that is not stored yet is added and then
extends the committed chain, whatever else is stored; but in a store with a single slot it is
refused, and nothing is added or committed ever after. -/
theorem uses_grow {config : Config} (valid : config.validate = .ok ())
    (uses : Uses (empty config.blockchainSize (Config.blockchainSize_pos valid)) c)
    (anchored : c.anchor = some a) (low : a.height.toNat < UInt64.size - 2)
    (height : b.height.toNat = a.height.toNat + 1) (names : b.parent = some a.id)
    (unknown : c.find? b.key = none) :
    (config.blockchainSize ≠ 1 →
      ∃ c', c.add b = .ok (c', true) ∧ c'.extendsChain b = true) ∧
    (config.blockchainSize = 1 → c.add b = .ok (c, false) ∧ ∀ d, Uses c d → d = c) := by
  obtain ⟨hc, hsize⟩ := Uses.tidy uses (tidy_empty _ _)
  have hslots : c.size = config.blockchainSize := hsize
  constructor
  · intro wide
    exact hc.add_next (hslots ▸ wide) anchored low height names unknown
  · intro single
    have hsingle : c.size = 1 := hslots.trans single
    exact ⟨hc.add_single hsingle anchored b, fun d => hc.eq_of_uses hsingle anchored⟩

/-! ### Above a first block -/

/-- The store after the commit of a first block. -/
def anchoredChain (size : Nat) (size_pos : 0 < size) : Except Fault Chain := do
  let (c, _) ← (empty size size_pos).add rootBlock
  let (c, _) ← c.commit rootBlock
  return c

theorem uses_anchoredChain {size : Nat} {size_pos : 0 < size}
    (h : anchoredChain size size_pos = .ok c) : Uses (empty size size_pos) c := by
  unfold anchoredChain at h
  simp only [pure, Except.pure] at h
  obtain ⟨⟨c₁, added⟩, hadd, h⟩ := bind_eq_ok.mp h
  obtain ⟨⟨c₂, bs⟩, hcommit, h⟩ := bind_eq_ok.mp h
  cases h
  exact .tail (.single (.add hadd)) (.commit hcommit)

/-- A configuration with this many slots for blocks. -/
def sizedConfig (size : Nat) : Config := { Config.default with blockchainSize := size }

/-- Above a first block, beside a fork and a block that waits for its predecessor. -/
def crowdedChain (size_pos : 0 < 3) : Except Fault Chain := do
  (← anchoredChain 3 size_pos).addAll [tipBlock, sideTipBlock, sideBlock]

theorem uses_grow_crowded : (sizedConfig 3).validate = .ok () ∧
    ∃ c, Uses (empty 3 (Nat.succ_pos 2)) c ∧ c.anchor = some rootBlock ∧
      rootBlock.height.toNat < UInt64.size - 2 ∧
      leafBlock.height.toNat = rootBlock.height.toNat + 1 ∧
      leafBlock.parent = some rootBlock.id ∧ c.find? leafBlock.key = none ∧ c.count = 3 ∧
      c.extendsChain tipBlock = false ∧
      ∃ c', c.add leafBlock = .ok (c', true) ∧ c'.extendsChain leafBlock = true := by
  obtain ⟨c, hc, hfacts⟩ : ∃ c, crowdedChain (Nat.succ_pos 2) = .ok c ∧
      (c.anchor, c.find? leafBlock.key, c.count, c.extendsChain tipBlock) =
        (some rootBlock, none, 3, false) :=
    exists_of_toOption (by decide +kernel)
  simp only [Prod.mk.injEq] at hfacts
  obtain ⟨anchored, unknown, hcount, htip⟩ := hfacts
  obtain ⟨c₁, hanchored, hrest⟩ := bind_eq_ok.mp hc
  have uses := (uses_anchoredChain hanchored).trans (uses_addAll hrest)
  have low : rootBlock.height.toNat < UInt64.size - 2 := by decide
  have height : leafBlock.height.toNat = rootBlock.height.toNat + 1 := rfl
  have valid : (sizedConfig 3).validate = .ok () := rfl
  exact ⟨valid, c, uses, anchored, low, height, rfl, unknown, hcount, htip,
    (uses_grow valid uses anchored low height rfl unknown).1 (by decide)⟩

/-- With a single slot, which is valid, the first commit is the last one: the block directly on
the anchor is refused. -/
theorem refuses_next : (sizedConfig 1).validate = .ok () ∧
    ∃ c, Uses (empty 1 Nat.one_pos) c ∧ c.anchor = some rootBlock ∧
      rootBlock.height.toNat < UInt64.size - 2 ∧
      leafBlock.height.toNat = rootBlock.height.toNat + 1 ∧
      leafBlock.parent = some rootBlock.id ∧ c.find? leafBlock.key = none ∧
      c.add leafBlock = .ok (c, false) ∧ c.extendsChain leafBlock = false := by
  obtain ⟨c, hc, hfacts⟩ : ∃ c, anchoredChain 1 Nat.one_pos = .ok c ∧
      (c.anchor, c.find? leafBlock.key, (c.add leafBlock).toOption == some (c, false),
        c.extendsChain leafBlock) = (some rootBlock, none, true, false) :=
    exists_of_toOption (by decide +kernel)
  simp only [Prod.mk.injEq, beq_iff_eq] at hfacts
  obtain ⟨anchored, unknown, hadd, hextends⟩ := hfacts
  refine ⟨rfl, c, uses_anchoredChain hc, anchored, by decide, rfl, rfl, unknown, ?_, hextends⟩
  cases h : c.add leafBlock with
  | error fault => simp [h, Except.toOption] at hadd
  | ok result => simpa [h, Except.toOption] using hadd

end Chain

end EpochConsensus
