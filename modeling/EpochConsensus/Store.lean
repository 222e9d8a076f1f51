import EpochConsensus.Block

/-! # The block store in two parts

Candidate blocks are kept in an arena under their keys, each with the key of its predecessor once
that is found.  Each of the `size` slots lists the names of one height, in the order of their
arrival, so that a slot can be freed without a search.  `Chain` is this store with the two parts
read as one.

A block names a predecessor one height below it, and an entry can be linked to no other key
(`StoredBlock.names`).  That is why a walk along the links ends, whatever the arena holds.
-/
namespace EpochConsensus

/-! ### The arena -/

/-- A candidate, and the key of its predecessor once that is found. -/
structure StoredBlock where
  block : Block
  parent : Option BlockKey
  /-- The predecessor is the one that the block names. -/
  names : ∀ key ∈ parent, block.parentKey = some key

namespace StoredBlock

def key (e : StoredBlock) : BlockKey := e.block.key

/-- The entry linked to the predecessor with this key, if it has waited for that. -/
def link (parent : BlockKey) (e : StoredBlock) : StoredBlock :=
  if h : e.parent = none ∧ e.block.parentKey = some parent then
    ⟨e.block, some parent, by simp [h.2]⟩
  else e

@[simp] theorem link_key (parent : BlockKey) (e : StoredBlock) : (e.link parent).key = e.key := by
  unfold link
  split <;> rfl

/-- A link goes down. -/
theorem lt_of_parent {e : StoredBlock} {key : BlockKey} (h : e.parent = some key) :
    key.1.toNat < e.key.1.toNat := by
  obtain ⟨id, hid, rfl⟩ := Option.map_eq_some_iff.mp (e.names key h)
  have hne : e.block.height ≠ 0 := fun hzero => by simp [e.block.rooted.mpr hzero] at hid
  have hone : (1 : UInt64) ≤ e.block.height := by
    rw [UInt64.le_iff_toNat_le]
    exact Nat.pos_of_ne_zero fun hzero => hne (UInt64.toNat_inj.mp hzero)
  show (e.block.height - 1).toNat < e.block.height.toNat
  rw [UInt64.toNat_sub_of_le _ _ hone]
  exact Nat.sub_lt (UInt64.le_iff_toNat_le.mp hone) Nat.one_pos

end StoredBlock

/-- Entries, each under its key. -/
structure Arena where
  entries : List StoredBlock
  distinct : entries.Pairwise fun a b => a.key ≠ b.key

namespace Arena

def empty : Arena := ⟨[], .nil⟩

variable (a : Arena)

/-- The entry under a key. -/
def get? (key : BlockKey) : Option StoredBlock := a.entries.find? fun e => e.key == key

def contains (key : BlockKey) : Bool := (a.get? key).isSome

def count : Nat := a.entries.length

/-- The arena without what is under a key. -/
def erase (key : BlockKey) : Arena where
  entries := a.entries.filter fun e => e.key != key
  distinct := a.distinct.filter _

/-- The arena with one more entry, which takes the place of the one under its key. -/
def insert (e : StoredBlock) : Arena where
  entries := e :: (a.erase e.key).entries
  distinct := by
    refine List.pairwise_cons.mpr ⟨fun d hd => ?_, (a.erase e.key).distinct⟩
    exact Ne.symm (by simpa using (List.mem_filter.mp hd).2)

/-- The arena with the entry under a key linked to the predecessor that it has waited for. -/
def link (key parent : BlockKey) : Arena where
  entries := a.entries.map fun e => if e.key = key then e.link parent else e
  distinct := by
    refine List.pairwise_map.mpr (a.distinct.imp fun h => ?_)
    split <;> split <;> simpa using h

theorem key_of_get? {a : Arena} {key : BlockKey} {e : StoredBlock} (h : a.get? key = some e) :
    e.key = key := by simpa using List.find?_some h

end Arena

/-- The candidates of one height, by name. -/
structure Listing where
  height : Height
  ids : List BlockId

/-- The arena without what a slot lists. -/
def Arena.drop (a : Arena) : Option Listing → Arena
  | none => a
  | some l => l.ids.foldl (fun a id => a.erase (l.height, id)) a

/-! ### The store -/

/-- Candidate blocks above the last committed one. -/
structure Store where
  size : Nat
  size_pos : 0 < size
  slots : Vector (Option Listing) size
  arena : Arena
  anchor : Option Block

namespace Store

/-- The store before any block. -/
def empty (size : Nat) (size_pos : 0 < size) : Store :=
  ⟨size, size_pos, .replicate size none, .empty, none⟩

/-- The store before any block, unless it has no slot or too many. -/
def create (size : Nat) : Except Fault Store :=
  if h : 0 < size then do
    let _ ← slotCount size
    return empty size h
  else .error .emptyStore

variable (s : Store)

def anchorKey : Option BlockKey := s.anchor.map Block.key

/-- The slot of a height. -/
def index (height : Height) : Fin s.size := ⟨height.toNat % s.size, Nat.mod_lt _ s.size_pos⟩

/-- Whether candidates of this height are accepted now: above the anchor, and less than `size`
above it. -/
def inWindow (height : Height) : Bool :=
  match s.anchor with
  | some anchor => anchor.height < height && (height - anchor.height).toNat < s.size
  | none => height.toNat < s.size

/-- The names listed for a height. -/
def ids (height : Height) : List BlockId :=
  match s.slots.get (s.index height) with
  | some l => if l.height = height then l.ids else []
  | none => []

/-- The candidate of this height and name. -/
def get? (height : Height) (id : BlockId) : Option Block :=
  (s.arena.get? (height, id)).map (·.block)

/-- The candidates stored at a height, in the order of their arrival. -/
def candidates (height : Height) : List Block := (s.ids height).filterMap (s.get? height)

/-- The number of candidates at all heights. -/
def count : Nat := s.arena.count

/-- Whether a key is the anchor's or a candidate's. -/
def holds (key : BlockKey) : Bool := s.anchorKey == some key || s.arena.contains key

/-! ### Slots -/

/-- The store with one slot written, and another arena. -/
def write (i : Fin s.size) (slot : Option Listing) (arena : Arena) : Store :=
  { s with slots := s.slots.set i.val slot i.isLt, arena }

/-- Frees a slot, and drops the candidates that it lists. -/
def clearSlot (i : Fin s.size) : Store := s.write i none (s.arena.drop (s.slots.get i))

/-- Takes the slot of a height over, unless it is taken for that height already. -/
def claimSlot (height : Height) : Store :=
  let i := s.index height
  if (s.slots.get i).any (·.height = height) then s
  else s.write i (some ⟨height, []⟩) (s.clearSlot i).arena

/-- Puts a candidate into the arena, and its name last into the slot of its height. -/
def insert (e : StoredBlock) : Store :=
  let i := s.index e.block.height
  let listed := (s.slots.get i).map fun l => { l with ids := l.ids ++ [e.block.id] }
  s.write i listed (s.arena.insert e)

/-! ### Adding blocks -/

/-- Whether a block lies directly above the anchor without naming it. -/
def conflicts (b : Block) : Except Fault Bool :=
  match s.anchor with
  | none => .ok false
  | some anchor => do
    let next ← successor anchor.height
    if b.height = next then return !(← b.follows (some anchor)) else return false

/-- Links the candidates listed for a height that have waited for this predecessor. -/
def linkListed (height : Height) (parent : BlockKey) : Store :=
  { s with arena := (s.ids height).foldl (fun a id => a.link (height, id) parent) s.arena }

/-- Links the candidates one height above a key that have waited for it. -/
def linkSuccessors (key : BlockKey) : Except Fault Store :=
  return s.linkListed (← successor key.1) key

/-- The predecessor that a block names, if it is held. -/
def heldParent (b : Block) : Option BlockKey := b.parentKey.filter s.holds

theorem parentKey_of_heldParent {s : Store} {b : Block} {key : BlockKey}
    (h : key ∈ s.heldParent b) : b.parentKey = some key := (Option.filter_eq_some_iff.mp h).1

/-- Adds a candidate and says whether it was added.  Refused are blocks already held, heights
outside the window, and blocks directly above the anchor that do not name it. -/
def add (b : Block) : Except Fault (Store × Bool) := do
  if s.holds b.key || !s.inWindow b.height then return (s, false)
  if ← s.conflicts b then return (s, false)
  let claimed := s.claimSlot b.height
  let added := claimed.insert ⟨b, claimed.heldParent b, fun _ => parentKey_of_heldParent⟩
  return (← added.linkSuccessors b.key, true)

/-! ### Walking down -/

/-- Whether the links lead from a key to the anchor; before the first commit, to a candidate of
height zero. -/
def leadsDown (key : BlockKey) : Bool :=
  if s.anchorKey = some key then true
  else match he : s.arena.get? key with
    | none => false
    | some e =>
      match hp : e.parent with
      | some parent =>
        have : parent.1.toNat < key.1.toNat := Arena.key_of_get? he ▸ StoredBlock.lt_of_parent hp
        leadsDown parent
      | none => s.anchor.isNone && key.1 = 0
termination_by key.1.toNat

/-- Whether a block is the anchor or is linked through candidates to it; before the first commit,
to a block of height zero. -/
def extendsChain (b : Block) : Bool := s.leadsDown b.key

/-! ### Committing -/

/-- The blocks that a commit of `b` delivers, from a key along the links down to the ground, highest
first.  Each predecessor is compared with the anchor before it is looked up. -/
def path (b : Block) (key : BlockKey) : Except Fault (List Block) :=
  match he : s.arena.get? key with
  | none => .error (.missing b.height b.id key.1)
  | some e =>
    match hp : e.parent with
    | some parent =>
      have : parent.1.toNat < key.1.toNat := Arena.key_of_get? he ▸ StoredBlock.lt_of_parent hp
      if s.anchorKey = some parent then .ok [e.block] else (path b parent).map (e.block :: ·)
    | none =>
      if s.anchor.isNone && key.1 = 0 then .ok [e.block]
      else .error (.unlinked b.height b.id key.1)
termination_by key.1.toNat

/-- Commits a block with all its uncommitted ancestors, which are returned highest first.  The
block becomes the anchor, and the slots of the committed heights are freed. -/
def commit (b : Block) : Except Fault (Store × List Block) := do
  if s.anchorKey = some b.key then return (s, [])
  let path ← s.path b b.key
  let cleared := path.foldl (fun s b => s.clearSlot (s.index b.height)) s
  return ({ cleared with anchor := path.head? }, path)

end Store

end EpochConsensus
