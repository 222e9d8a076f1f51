import EpochConsensus.Proofs.Message.Spelling

/-! # Reading back what was written

A reader `Reads` some bytes as a value in front of others when it takes exactly these bytes off and
gives that value, wherever they stand.  Readers that follow one another read the bytes that follow
one another (`Reads.bind`), so every `decode` is followed field by field through what is written:
for blocks (`Block.decode_encode`), certificates and messages.  A certificate is read from every
list of entries in which its signatures come first (`Certificate.decode_spell`), and a message from
all of its spellings (`Message.decode_of_spells`), of which one is its encoding
(`Message.decode_encode`).  Two kinds of message have a field that the bytes cannot hold, and are
`Writable` when it is not needed.
-/
namespace EpochConsensus

namespace Read

variable {α β : Type}

/-- In front of `rest`, the reader takes off `bytes` and makes `a` of them. -/
def Reads (read : Read α) (bytes rest : Bytes) (a : α) : Prop :=
  ∀ offset, read ⟨offset, bytes ++ rest⟩ = .ok (a, ⟨offset + bytes.length, rest⟩)

namespace Reads

variable {read : Read α} {xs ys rest : Bytes} {a : α} {b : β}

theorem run (h : Reads read xs rest a) : Read.run read (xs ++ rest) = .ok a := by
  simp [Read.run, h 0, Functor.map, Except.map]

theorem pure (a : α) (rest : Bytes) : Reads (pure a) [] rest a := fun _ => rfl

/-- Readers that follow one another. -/
theorem bind {next : α → Read β} (first : Reads read xs (ys ++ rest) a)
    (second : Reads (next a) ys rest b) : Reads (read >>= next) (xs ++ ys) rest b := by
  intro offset
  have h := first offset
  simp only [Bind.bind, StateT.bind, List.append_assoc, h, Except.bind]
  rw [second, List.length_append, Nat.add_assoc]

/-- What follows may take nothing off. -/
theorem bind_nil {next : α → Read β} (first : Reads read xs rest a)
    (second : Reads (next a) [] rest b) : Reads (read >>= next) xs rest b := by
  have h := first.bind second
  rwa [List.append_nil] at h

/-- The last reader, with what is made of it. -/
theorem result (h : Reads read xs rest a) (f : α → β) :
    Reads (read >>= fun a => Pure.pure (f a)) xs rest (f a) := h.bind_nil (.pure (f a) rest)

theorem map (h : Reads read xs rest a) (f : α → β) : Reads (f <$> read) xs rest (f a) := by
  intro offset
  simp [Functor.map, StateT.map, h offset, Bind.bind, Except.bind, Pure.pure, Except.pure]

/-- Looking at what remains takes nothing off. -/
theorem get_bind {next : Cursor → Read β}
    (h : ∀ offset, Reads (next ⟨offset, xs ++ rest⟩) xs rest b) :
    Reads (get >>= next) xs rest b := fun offset => h offset offset

/-- A value that was found apart takes nothing off. -/
theorem lift_bind {x : Except Rejection α} {next : α → Read β} (h : x = .ok a)
    (second : Reads (next a) ys rest b) : Reads (liftM x >>= next) ys rest b := by
  subst h
  exact second

end Reads

theorem reads_take {n : Nat} (o : Octets n) (rest : Bytes) : Reads (take n) o.toList rest o := by
  intro offset
  rw [take_append, o.length_toList]

theorem reads_number (n : Nat) {v : Nat} (h : v < byteRange n) (rest : Bytes) :
    Reads (number n) (littleEndian n v) rest v := by
  intro offset
  rw [number_append, Nat.mod_eq_of_lt h, length_littleEndian]

theorem reads_byte (b : UInt8) (rest : Bytes) : Reads byte [b] rest b := by
  have h := (reads_number 1 b.toNat_lt rest).map UInt8.ofNat
  simp only [littleEndian, UInt8.ofNat_toNat] at h
  exact h

theorem reads_process (p : ProcessId) (rest : Bytes) :
    Reads process (littleEndian 2 p.toNat) rest p := by
  have h := (reads_number 2 p.toNat_lt rest).map UInt16.ofNat
  rwa [UInt16.ofNat_toNat] at h

theorem reads_word (w : UInt64) (rest : Bytes) : Reads word (littleEndian 8 w.toNat) rest w := by
  have h := (reads_number 8 w.toNat_lt rest).map UInt64.ofNat
  rwa [UInt64.ofNat_toNat] at h

theorem reads_blockId (id : BlockId) (rest : Bytes) : Reads blockId id.bytes.toList rest id :=
  (reads_take id.bytes rest).map BlockId.mk

theorem reads_takeRest (xs : Bytes) : Reads takeRest xs [] xs := by
  intro offset
  simp [takeRest]

theorem reads_takeAllBut (xs : Bytes) {rest : Bytes} {n : Nat} (h : rest.length = n) :
    Reads (takeAllBut n) xs rest xs := by
  intro offset
  have hlong : ¬ xs.length + rest.length < n := by omega
  have hread : xs.length + rest.length - n = xs.length := by omega
  simp [takeAllBut, hlong, hread]

theorem reads_finish : Reads finish [] [] () := fun _ => rfl

end Read

open Read

/-! ### Blocks -/

namespace Block

theorem reads_read (b : Block) : Reads read b.encode [] b := by
  obtain ⟨height, parent, value, rooted, id, rfl⟩ := b
  cases parent with
  | none =>
    obtain rfl := rooted.mp rfl
    exact (reads_word 0 _).bind ((reads_takeRest value).result (ofFields 0 none · rooted))
  | some parent =>
    have hheight : height ≠ 0 := fun h => by cases rooted.mpr h
    refine (reads_word height _).bind ?_
    rw [dif_neg hheight]
    exact (reads_blockId parent _).bind
      ((reads_takeRest value).result (ofFields height (some parent) · rooted))

/-- **Encoding and decoding do not change a block.** -/
theorem decode_encode (b : Block) : decode b.encode = .ok b := by
  have h := (reads_read b).run
  rwa [List.append_nil] at h

end Block

/-! ### Certificates -/

namespace Certificate

/-- Entries are put in one after the other. -/
theorem reads_readEntries (s : Signatures) (es : List (ProcessId × Signature)) (rest : Bytes) :
    Reads (readEntries es.length s) (es.flatMap encodeEntry) rest (s.insertAll es) := by
  induction es generalizing s with
  | nil => exact .pure s rest
  | cons e es ih =>
    rw [List.flatMap_cons, encodeEntry, List.append_assoc]
    exact (reads_process e.1 _).bind ((reads_take e.2.bytes _).bind (ih (s.insert e.1 e.2)))

theorem reads_readSubject (subject : Subject) (rest : Bytes) :
    Reads (readSubject subject.kind) (subjectBytes subject) rest subject := by
  cases subject with
  | silence => exact .pure _ rest
  | block height id =>
    exact (reads_word height _).bind ((reads_blockId id rest).result (Subject.block height))

theorem reads_spell {c : Certificate} {es : List (ProcessId × Signature)}
    (h : .ofEntries es = c.signatures) : Reads read (c.spell es) [] c := by
  obtain ⟨⟨epoch, subject⟩, signatures⟩ := c
  obtain rfl : .ofEntries es = signatures := h
  refine (reads_byte 0 _).bind ?_
  refine (reads_byte _ _).bind ?_
  refine .lift_bind (CertificateKind.ofCode_code subject.kind) ?_
  refine (reads_word epoch _).bind ?_
  refine (reads_readSubject subject _).bind ?_
  refine .get_bind fun offset => ?_
  -- the number of entries follows from the number of bytes that remain
  have hlength : (es.flatMap encodeEntry ++ []).length = es.length * entrySize := by
    rw [List.append_nil, length_flatMap_encodeEntry]
  have hcount : es.length * entrySize / entrySize = es.length :=
    Nat.mul_div_cancel _ (by decide)
  simp only [hlength, hcount, Nat.mul_mod_left, ne_eq, not_true, if_false]
  exact (reads_readEntries .empty es []).result (Certificate.mk ⟨epoch, subject⟩)

theorem decode_spell {c : Certificate} {es : List (ProcessId × Signature)}
    (h : .ofEntries es = c.signatures) : decode (c.spell es) = .ok c := by
  have h := (reads_spell h).run
  rwa [List.append_nil] at h

/-- **Encoding and decoding do not change a certificate.** -/
theorem decode_encode (c : Certificate) : decode c.encode = .ok c := by
  rw [encode_eq_spell]
  exact decode_spell (Roster.ofEntries_eq_iff.mpr c.signatures.lookup_entries)

end Certificate

/-! ### Messages -/

namespace Message

theorem reads_readSignature (s : Signature) (rest : Bytes) :
    Reads readSignature s.bytes.toList rest s := (reads_take s.bytes rest).map Signature.mk

theorem reads_readSilence (s : Silence) : Reads readSilence (silence s).body [] s := by
  simp only [readSilence, body, List.append_assoc]
  refine (reads_word s.epoch _).bind ?_
  refine (reads_process s.sender _).bind ?_
  exact (reads_readSignature s.signature []).result (Silence.mk s.epoch s.sender)

theorem reads_readVote (v : Vote) (h : v.cosignature ≠ some .empty) :
    Reads readVote (vote v).body [] v := by
  obtain ⟨epoch, height, blockId, sender, signature, cosigner, cosignature⟩ := v
  have hsecond : (if (cosignature.getD .empty).isEmpty = true then none
      else some (cosignature.getD .empty)) = cosignature := by
    cases cosignature with
    | none => rfl
    | some s =>
      have hne : s ≠ .empty := fun heq => h (by rw [heq])
      simp [Signature.isEmpty, hne]
  simp only [readVote, body, List.append_assoc]
  refine (reads_word epoch _).bind ?_
  refine (reads_word height _).bind ?_
  refine (reads_blockId blockId _).bind ?_
  refine (reads_process cosigner _).bind ?_
  refine (reads_readSignature _ _).bind ?_
  refine (reads_process sender _).bind ?_
  rw [hsecond]
  exact (reads_readSignature signature []).result
    (Vote.mk epoch height blockId sender · cosigner cosignature)

theorem reads_readEcho (e : Echo) : Reads readEcho (probe e).body [] e := by
  have hsize : (littleEndian 2 e.sender.toNat ++ []).length = 2 := by simp
  exact (reads_takeAllBut e.payload hsize).bind
    ((reads_process e.sender []).result (Echo.mk e.payload))

theorem reads_readProposal {p : Proposal} {flag : UInt8} {es : List (ProcessId × Signature)}
    (short : p.block.byteSize < 2 ^ 32) (announced : flag ≠ 0 ↔ p.certificate.isSome = true)
    (signatures : ∀ c, p.certificate = some c → .ofEntries es = c.signatures) :
    Reads readProposal ((propose p).spellBody flag es) [] p := by
  obtain ⟨epoch, block, certificate, sender, relay, signature⟩ := p
  have htrailer : Reads (do
        let sender ← process
        let relay ← process
        return { epoch, block, certificate, sender, relay, signature := ← readSignature })
      (littleEndian 2 sender.toNat ++ (littleEndian 2 relay.toNat ++ signature.bytes.toList)) []
      (Proposal.mk epoch block certificate sender relay signature) :=
    (reads_process sender _).bind ((reads_process relay _).bind
      ((reads_readSignature signature []).result
        (Proposal.mk epoch block certificate sender relay)))
  refine (reads_word epoch _).bind ?_
  refine (reads_number 4 short _).bind ?_
  refine (reads_take ⟨block.encode, block.length_encode⟩ _).bind ?_
  refine .lift_bind block.decode_encode ?_
  refine (reads_byte flag _).bind ?_
  cases certificate with
  | none =>
    have hflag : flag = 0 := by simpa using announced
    rw [if_pos hflag]
    exact (Reads.pure none _).bind htrailer
  | some c =>
    have hflag : flag ≠ 0 := announced.mpr rfl
    have hsize : (littleEndian 2 sender.toNat ++ (littleEndian 2 relay.toNat ++
        signature.bytes.toList) ++ []).length = trailerSize := by
      simp [signature.bytes.length_toList, trailerSize]
    rw [if_neg hflag]
    refine (reads_takeAllBut (c.spell es) hsize).bind ?_
    rw [Certificate.decode_spell (signatures c rfl)]
    exact (Reads.pure (some c) _).bind htrailer

theorem reads_readBody {m : Message} {flag : UInt8} {es : List (ProcessId × Signature)}
    {raw : Bytes} (h : m.Spells flag es raw) :
    Reads (readBody m.kind) (m.spellBody flag es) [] m := by
  have hsignatures := h.ofEntries_eq
  cases m with
  | propose p =>
    refine (reads_readProposal h.writable h.announced ?_).map propose
    intro c hc
    simpa [certified, certificate?, hc] using hsignatures
  | silence s => exact (reads_readSilence s).map silence
  | vote v => exact (reads_readVote v h.writable).map vote
  | quitEpoch c =>
    refine (reads_takeRest (c.spell es)).bind_nil ?_
    exact .lift_bind (Certificate.decode_spell hsignatures) (.pure _ [])
  | certificate epoch c =>
    refine (reads_word epoch _).bind ?_
    refine (reads_takeRest (c.spell es)).bind_nil ?_
    exact .lift_bind (Certificate.decode_spell hsignatures) (.pure _ [])
  | probe e => exact (reads_readEcho e).map probe
  | answer e => exact (reads_readEcho e).map answer

theorem reads_read {m : Message} {flag : UInt8} {es : List (ProcessId × Signature)} {raw : Bytes}
    (h : m.Spells flag es raw) : Reads read raw [] m := by
  rw [h.bytes]
  refine (reads_byte 0 _).bind ?_
  refine (reads_byte _ _).bind ?_
  refine .lift_bind (MessageKind.ofCode_code m.kind) ?_
  refine (reads_readBody h).bind_nil ?_
  exact reads_finish.bind_nil (.pure m [])

/-- **Every spelling of a message decodes to it.** -/
theorem decode_of_spells {m : Message} {flag : UInt8} {es : List (ProcessId × Signature)}
    {raw : Bytes} (h : m.Spells flag es raw) : decode raw = .ok m := by
  have h := (reads_read h).run
  rwa [List.append_nil] at h

/-- **Encoding and decoding do not change a message** that the bytes can hold. -/
theorem decode_encode {m : Message} (h : m.Writable) : decode m.encode = .ok m :=
  decode_of_spells (spells_encode h)

/-- **What is written has the stated length and reads back**: every block, every certificate, and
every message that the bytes can hold. -/
theorem encode_reads_back :
    (∀ m : Message, m.Writable → m.encode.length = m.byteSize ∧ decode m.encode = .ok m) ∧
    (∀ b : Block, b.encode.length = b.byteSize ∧ Block.decode b.encode = .ok b) ∧
    ∀ c : Certificate, c.encode.length = c.byteSize ∧ Certificate.decode c.encode = .ok c := by
  refine ⟨?_, ?_, ?_⟩
  · intro m writable
    exact ⟨m.length_encode, decode_encode writable⟩
  · intro b
    exact ⟨b.length_encode, b.decode_encode⟩
  · intro c
    exact ⟨c.length_encode, c.decode_encode⟩

/-- A proposal of a second block, with a certificate of two signers on its predecessor. -/
def certifiedProposal : Proposal where
  epoch := 1
  block := .ofFields 1 (some ⟨.fill 32 9⟩) [5] (by simp)
  certificate := some (((Certificate.block 0 0 ⟨.fill 32 9⟩).add 2 ⟨.fill 64 3⟩).add 0 ⟨.fill 64 1⟩)
  sender := 1
  relay := 2
  signature := ⟨.fill 64 4⟩

theorem encode_reads_back_certified :
    (propose certifiedProposal).Writable ∧ (propose certifiedProposal).encode.length = 306 ∧
      decode (propose certifiedProposal).encode = .ok (propose certifiedProposal) := by
  have writable : (propose certifiedProposal).Writable :=
    show certifiedProposal.block.byteSize < 2 ^ 32 by decide
  obtain ⟨hlength, hdecode⟩ := encode_reads_back.1 (propose certifiedProposal) writable
  exact ⟨writable, hlength.trans (by decide), hdecode⟩

end Message

end EpochConsensus
