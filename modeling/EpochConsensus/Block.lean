import EpochConsensus.Cursor
import EpochConsensus.Sha2

/-! # Blocks

A block is a height, the name of its predecessor and a value.  Exactly the blocks of height zero
have no predecessor.  The name of a block is the digest of its encoding `height | [parent] | value`
and is kept beside the fields, with the proof that it is that digest, so that it is computed once;
two blocks are equal when their fields are (`Block.ext`).
-/
namespace EpochConsensus

/-- A height with a name: two blocks of one height differ in their names. -/
abbrev BlockKey := Height × BlockId

namespace Block

/-- The bytes that a block's name is the digest of. -/
def encodeFields (height : Height) (parent : Option BlockId) (value : Bytes) : Bytes :=
  littleEndian 8 height.toNat ++ (parent.elim [] (·.bytes.toList) ++ value)

end Block

/-- The name of an encoded block. -/
def BlockId.ofEncoding (bytes : Bytes) : BlockId := ⟨Sha2.sha256 bytes⟩

/-- A block of the chain. -/
structure Block where
  height : Height
  parent : Option BlockId
  value : Bytes
  /-- Blocks of height zero lack a predecessor, and only they. -/
  rooted : parent = none ↔ height = 0
  id : BlockId
  id_eq : id = .ofEncoding (Block.encodeFields height parent value)

namespace Block

theorem ext {a b : Block} (height : a.height = b.height) (parent : a.parent = b.parent)
    (value : a.value = b.value) : a = b := by
  obtain ⟨ha, pa, va, ra, ia, ea⟩ := a
  obtain ⟨hb, pb, vb, rb, ib, eb⟩ := b
  cases height; cases parent; cases value; cases ea; cases eb; rfl

theorem ext_iff {a b : Block} :
    a = b ↔ a.height = b.height ∧ a.parent = b.parent ∧ a.value = b.value :=
  ⟨fun h => by simp [h], fun ⟨h, p, v⟩ => ext h p v⟩

instance : DecidableEq Block := fun _ _ => decidable_of_iff' _ ext_iff

/-- The block with these fields. -/
def ofFields (height : Height) (parent : Option BlockId) (value : Bytes)
    (rooted : parent = none ↔ height = 0) : Block :=
  ⟨height, parent, value, rooted, .ofEncoding (encodeFields height parent value), rfl⟩

/-- The block with these fields, unless height and predecessor do not fit together. -/
def create (height : Height) (value : Bytes) (parent : Option BlockId) : Except Fault Block :=
  if rooted : parent = none ↔ height = 0 then .ok (ofFields height parent value rooted)
  else .error .unrooted

/-- A first block. -/
def genesis (value : Bytes) : Block := ofFields 0 none value (by simp)

/-- The block of `value` on top of `parent`. -/
def childOf (parent : Block) (value : Bytes) : Except Fault Block := do
  create (← successor parent.height) value (some parent.id)

def key (b : Block) : BlockKey := (b.height, b.id)

/-- The key of the predecessor that a block names. -/
def parentKey (b : Block) : Option BlockKey := b.parent.map fun id => (b.height - 1, id)

/-- Whether `b` directly follows `other` or is `other`; without `other`, whether `b` is a first
block. -/
def follows (b : Block) : Option Block → Except Fault Bool
  | none => .ok (b.height == 0)
  | some other => do
    let next ← successor other.height
    return (b.height == next && b.parent == some other.id) || b.key == other.key

/-! ### Encoding -/

def encode (b : Block) : Bytes := encodeFields b.height b.parent b.value

/-- The length of a block's encoding. -/
def byteSize (b : Block) : Nat := 8 + (if b.parent.isSome then 32 else 0) + b.value.length

theorem length_encode (b : Block) : b.encode.length = b.byteSize := by
  cases h : b.parent with
  | none => simp [encode, encodeFields, byteSize, h]
  | some p => simp [encode, encodeFields, byteSize, h, p.bytes.length_toList]; omega

/-- Reads a block up to the end of the bytes: the height, the predecessor above height zero, and
the value. -/
def read : Read Block := do
  let height ← Read.word
  if h : height = 0 then
    return ofFields height none (← Read.takeRest) (by simp [h])
  else
    let parent ← Read.blockId
    return ofFields height (some parent) (← Read.takeRest) (by simp [h])

def decode (bytes : Bytes) : Except Rejection Block := Read.run read bytes

/-! ### Text -/

/-- One line that shows everything but the value. -/
def describe (b : Block) : String :=
  "Block \x7b height: " ++ toString b.height.toNat ++ ", id: " ++ b.id.describe ++ ", prev: " ++
    b.parent.elim "None" (fun p => "Some(" ++ p.describe ++ ")") ++ ", value_len: " ++
    toString b.value.length ++ " \x7d"

end Block

end EpochConsensus
