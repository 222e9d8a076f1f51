import EpochConsensus.Fault

/-! # Reading bytes from the front

A `Cursor` is what remains of a byte string with the number of bytes already consumed.  A `Read`
takes fields off its front, or refuses the bytes when they end too early.  Reading what was written
gives it back and consumes exactly it (`take_append`, `number_append`).
-/
namespace EpochConsensus

/-- The unread bytes and the offset of the first of them. -/
structure Cursor where
  offset : Nat
  rest : Bytes

/-- A computation that consumes bytes. -/
abbrev Read := StateT Cursor (Except Rejection)

namespace Read

/-- The next `n` bytes. -/
def take (n : Nat) : Read (Octets n) := fun c =>
  match Octets.ofList? n (c.rest.take n) with
  | some head => .ok (head, ⟨c.offset + n, c.rest.drop n⟩)
  | none => .error (.truncated c.offset n c.rest.length)

/-- Every byte that remains. -/
def takeRest : Read Bytes := fun c => .ok (c.rest, ⟨c.offset + c.rest.length, []⟩)

/-- The bytes that remain after leaving `trailer` bytes for later fields. -/
def takeAllBut (trailer : Nat) : Read Bytes := fun c =>
  if c.rest.length < trailer then .error (.truncated c.offset trailer c.rest.length)
  else
    let n := c.rest.length - trailer
    .ok (c.rest.take n, ⟨c.offset + n, c.rest.drop n⟩)

/-- A number in the next `n` bytes, least significant first. -/
def number (n : Nat) : Read Nat := do return ofLittleEndian (← take n).toList

def byte : Read UInt8 := UInt8.ofNat <$> number 1

def process : Read ProcessId := UInt16.ofNat <$> number 2

def word : Read UInt64 := UInt64.ofNat <$> number 8

def blockId : Read BlockId := BlockId.mk <$> take 32

/-- Refuses bytes after the last field. -/
def finish : Read Unit := fun c =>
  if c.rest.isEmpty then .ok ((), c)
  else .error (.lengthMismatch c.offset (c.offset + c.rest.length))

/-- The value that `read` makes of a whole byte string, whatever it leaves unread. -/
def run {α : Type} (read : Read α) (bytes : Bytes) : Except Rejection α :=
  (·.1) <$> read ⟨0, bytes⟩

theorem take_append {n : Nat} (o : Octets n) (offset : Nat) (rest : Bytes) :
    take n ⟨offset, o.toList ++ rest⟩ = .ok (o, ⟨offset + n, rest⟩) := by
  have h := o.length_toList
  have ht : (o.toList ++ rest).take n = o.toList := List.take_left' h
  have hd : (o.toList ++ rest).drop n = rest := List.drop_left' h
  simp [take, ht, hd]

theorem number_append (n v offset : Nat) (rest : Bytes) :
    number n ⟨offset, littleEndian n v ++ rest⟩ =
      .ok (v % byteRange n, ⟨offset + n, rest⟩) := by
  have h := take_append ⟨littleEndian n v, length_littleEndian n v⟩ offset rest
  simp only [number, bind, StateT.bind, h, Except.bind]
  show Except.ok (ofLittleEndian (littleEndian n v), _) = _
  rw [ofLittleEndian_littleEndian]

end Read

end EpochConsensus
