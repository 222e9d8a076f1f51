import EpochConsensus.Block

/-! # The windowed block store

Candidate blocks above the last committed block (the anchor) wait in `size` slots; the candidates
of height `h` are in slot `h mod size`, in the order of their arrival.  A candidate is linked once
its predecessor is stored or is the anchor, so that the linked candidates form a tree over the
anchor, or over the blocks of height zero before the first commit.

`descend` walks from a block down that tree and says where it ends; whether a block may be committed
(`extendsChain`) is read off it.  A commit goes down in a loop of its own (`path`), which asks for
the anchor one block earlier.
-/
namespace EpochConsensus

/-- A stored candidate. -/
structure Candidate where
  block : Block
  /-- Whether its predecessor was found, as another candidate or as the anchor. -/
  linked : Bool
deriving DecidableEq

/-- The candidates of one height. -/
structure Slot where
  height : Height
  candidates : List Candidate
deriving DecidableEq

/-- Candidate blocks above the last committed one. -/
structure Chain where
  size : Nat
  size_pos : 0 < size
  slots : Vector (Option Slot) size
  anchor : Option Block
deriving DecidableEq

/-- Where a walk down the chain ends. -/
inductive Footing where
  /-- At the anchor, or before the first commit at a block of height zero. -/
  | grounded
  /-- At a height where the named predecessor is not stored. -/
  | missing (reached : Height)
  /-- At a stored block whose predecessor is not linked. -/
  | unlinked (reached : Height)
deriving DecidableEq

/-- The blocks passed on a walk down the chain, highest first, and where it ends. -/
structure Descent where
  blocks : List Block
  footing : Footing
deriving DecidableEq

namespace Chain

/-- The store before any block. -/
def empty (size : Nat) (size_pos : 0 < size) : Chain :=
  ⟨size, size_pos, .replicate size none, none⟩

/-- The store before any block, unless it has no slot or too many. -/
def create (size : Nat) : Except Fault Chain :=
  if h : 0 < size then do
    let _ ← slotCount size
    return empty size h
  else .error .emptyStore

variable (c : Chain)

def anchorKey : Option BlockKey := c.anchor.map Block.key

/-- The slot of a height. -/
def index (height : Height) : Fin c.size := ⟨height.toNat % c.size, Nat.mod_lt _ c.size_pos⟩

/-- The candidates stored at a height, in the order of their arrival. -/
def candidates (height : Height) : List Candidate :=
  match c.slots.get (c.index height) with
  | some slot => if slot.height = height then slot.candidates else []
  | none => []

def find? (key : BlockKey) : Option Candidate :=
  (c.candidates key.1).find? fun e => e.block.id == key.2

/-- The number of candidates at all heights. -/
def count : Nat := (c.slots.toList.flatMap fun s => s.elim [] (·.candidates)).length

/-- Whether candidates of this height are accepted now: above the anchor, and less than `size`
above it. -/
def inWindow (height : Height) : Bool :=
  match c.anchor with
  | some anchor => anchor.height < height && height.toNat - anchor.height.toNat < c.size
  | none => height.toNat < c.size

/-- Whether a key is the anchor's or a candidate's. -/
def holds (key : BlockKey) : Bool := c.anchorKey == some key || (c.find? key).isSome

/-! ### Adding blocks -/

/-- The store with other candidates at one height, which takes over the slot. -/
def setCandidates (height : Height) (candidates : List Candidate) : Chain :=
  let i := c.index height
  { c with slots := c.slots.set i.val (some ⟨height, candidates⟩) i.isLt }

/-- Whether a block lies directly above the anchor without naming it. -/
def conflicts (b : Block) : Except Fault Bool :=
  match c.anchor with
  | none => .ok false
  | some anchor => do
    let next ← successor anchor.height
    if b.height = next then return !(← b.follows (some anchor)) else return false

/-- Links the candidates one height above `b` that name it. -/
def linkSuccessors (b : Block) : Except Fault Chain := do
  let next ← successor b.height
  let link (e : Candidate) : Candidate :=
    if e.block.parent = some b.id then { e with linked := true } else e
  match c.candidates next with
  | [] => return c
  | above => return c.setCandidates next (above.map link)

/-- Adds a candidate and says whether it was added.  Refused are blocks already held, heights
outside the window, and blocks directly above the anchor that do not name it. -/
def add (b : Block) : Except Fault (Chain × Bool) := do
  if c.holds b.key || !c.inWindow b.height then return (c, false)
  if ← c.conflicts b then return (c, false)
  let claimed := c.setCandidates b.height (c.candidates b.height)
  let linked := b.parentKey.any claimed.holds
  let added := claimed.setCandidates b.height (claimed.candidates b.height ++ [⟨b, linked⟩])
  return (← added.linkSuccessors b, true)

/-! ### Walking down -/

/-- The walk from the block named `id` at a height, one height at a time. -/
def descend : (height : Nat) → (id : BlockId) → Descent
  | 0, id =>
    if c.anchorKey = some (0, id) then ⟨[], .grounded⟩
    else match c.find? (0, id) with
      | none => ⟨[], .missing 0⟩
      | some e => ⟨[e.block], if c.anchor.isNone then .grounded else .unlinked 0⟩
  | n + 1, id =>
    let height := UInt64.ofNat (n + 1)
    if c.anchorKey = some (height, id) then ⟨[], .grounded⟩
    else match c.find? (height, id) with
      | none => ⟨[], .missing height⟩
      | some e =>
        match e.linked, e.block.parent with
        | true, some parent =>
          let below := descend n parent
          ⟨e.block :: below.blocks, below.footing⟩
        | _, _ => ⟨[e.block], .unlinked height⟩

/-- Whether a block is the anchor or is linked through candidates to it; before the first commit,
to a block of height zero. -/
def extendsChain (b : Block) : Bool := (c.descend b.height.toNat b.id).footing = .grounded

/-! ### Committing -/

/-- The blocks that a commit of `b` delivers, from the one named `id` at a height down to the
ground, highest first.  Each predecessor is compared with the anchor before it is looked up. -/
def path (b : Block) : (height : Nat) → (id : BlockId) → Except Fault (List Block)
  | 0, id =>
    match c.find? (0, id) with
    | none => .error (.missing b.height b.id 0)
    | some e => if c.anchor.isNone then .ok [e.block] else .error (.unlinked b.height b.id 0)
  | n + 1, id =>
    let height := UInt64.ofNat (n + 1)
    match c.find? (height, id) with
    | none => .error (.missing b.height b.id height)
    | some e =>
      match e.linked, e.block.parent with
      | true, some parent =>
        if c.anchorKey = some (UInt64.ofNat n, parent) then .ok [e.block]
        else (path b n parent).map (e.block :: ·)
      | _, _ => .error (.unlinked b.height b.id height)

/-- The store without the candidates at one height. -/
def clear (height : Height) : Chain :=
  let i := c.index height
  { c with slots := c.slots.set i.val none i.isLt }

/-- Commits a block with all its uncommitted ancestors, which are returned highest first.  The
block becomes the anchor, and every candidate at a committed height is dropped. -/
def commit (b : Block) : Except Fault (Chain × List Block) := do
  if c.anchorKey = some b.key then return (c, [])
  let path ← c.path b b.height.toNat b.id
  let cleared := path.foldl (fun c b => c.clear b.height) c
  return ({ cleared with anchor := path.head? }, path)

end Chain

end EpochConsensus
