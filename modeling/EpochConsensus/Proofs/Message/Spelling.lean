import EpochConsensus.Message.Wire
import EpochConsensus.Proofs.Roster
import Mathlib.Algebra.Group.Nat.Defs

/-! # How a message may be spelled

Two things in the bytes of a message do not show in the message: which byte other than zero
announces the certificate of a proposal, and in which order, and how often, the signers of a
certificate come.  `Message.spell` writes a message with both of them given, and `Message.Spells`
says that they go with the message.  `encode` writes every message in one such way
(`Message.encode_eq_spell`): of all spellings it is the one whose announcing byte is a one and whose
signers come in increasing order (`Spells.encode_eq_iff`), and no other is shorter
(`Spells.length_encode_le`).
-/
namespace EpochConsensus

/-! ### Certificates -/

namespace Certificate

/-- The bytes of what a certificate is about. -/
def subjectBytes : Subject → Bytes
  | .silence => []
  | .block height id => littleEndian 8 height.toNat ++ id.bytes.toList

/-- The bytes of a certificate with these entries in the place of its signatures. -/
def spell (c : Certificate) (entries : List (ProcessId × Signature)) : Bytes :=
  [0] ++ ([c.kind.code] ++ (littleEndian 8 c.epoch.toNat ++
    (subjectBytes c.statement.subject ++ entries.flatMap encodeEntry)))

theorem encode_eq_spell (c : Certificate) : c.encode = c.spell c.signatures.entries := by
  obtain ⟨⟨epoch, subject⟩, signatures⟩ := c
  cases subject <;> rfl

@[simp] theorem length_encodeEntry (e : ProcessId × Signature) :
    (encodeEntry e).length = entrySize := by
  simp [encodeEntry, e.2.bytes.length_toList, entrySize]

theorem length_flatMap_encodeEntry (es : List (ProcessId × Signature)) :
    (es.flatMap encodeEntry).length = es.length * entrySize := by
  simp

/-- The entries follow a head of 10 or 50 bytes. -/
theorem length_spell (c : Certificate) (es : List (ProcessId × Signature)) :
    (c.spell es).length =
      (match c.kind with
        | .silence => 10
        | .block => 50) + es.length * entrySize := by
  obtain ⟨⟨epoch, subject⟩, signatures⟩ := c
  cases subject with
  | silence =>
    simp [spell, subjectBytes, kind, Subject.kind]
    omega
  | block height id =>
    simp [spell, subjectBytes, kind, Subject.kind, id.bytes.length_toList]
    omega

theorem length_encode (c : Certificate) : c.encode.length = c.byteSize := by
  rw [encode_eq_spell, length_spell]
  rfl

/-- An entry is determined by its bytes. -/
theorem encodeEntry_injective {d e : ProcessId × Signature} (h : encodeEntry d = encodeEntry e) :
    d = e := by
  obtain ⟨hprocess, hsignature⟩ := List.append_inj h (by simp)
  have hprocess := eq_of_littleEndian_eq d.1.toNat_lt e.1.toNat_lt hprocess
  exact Prod.ext (UInt16.toNat_inj.mp hprocess) (congrArg Signature.mk (Octets.ext hsignature))

theorem flatMap_encodeEntry_injective {es fs : List (ProcessId × Signature)}
    (h : es.flatMap encodeEntry = fs.flatMap encodeEntry) : es = fs := by
  have hlength := congrArg List.length h
  rw [length_flatMap_encodeEntry, length_flatMap_encodeEntry] at hlength
  have hcount : es.length = fs.length := Nat.eq_of_mul_eq_mul_right (by decide) hlength
  induction es generalizing fs with
  | nil => exact (List.length_eq_zero_iff.mp hcount.symm).symm
  | cons e es ih =>
    cases fs with
    | nil => cases hcount
    | cons f fs =>
      rw [List.flatMap_cons, List.flatMap_cons] at h
      obtain ⟨hfirst, hrest⟩ := List.append_inj h (by simp)
      have hcount : es.length = fs.length := Nat.succ.inj hcount
      rw [encodeEntry_injective hfirst, ih hrest (by rw [hcount]) hcount]

/-- The entries can be read off. -/
theorem spell_injective {c : Certificate} {es fs : List (ProcessId × Signature)}
    (h : c.spell es = c.spell fs) : es = fs := by
  unfold spell at h
  exact flatMap_encodeEntry_injective (by simpa using h)

end Certificate

/-! ### Messages -/

namespace Message

/-- The message has no field that its bytes cannot hold: the length of a proposed block fits into
four bytes, and the second signature of a vote is not the one that stands for none. -/
def Writable : Message → Prop
  | propose p => p.block.byteSize < 2 ^ 32
  | vote v => v.cosignature ≠ some .empty
  | _ => True

/-- The certificate that is part of a message. -/
def certificate? : Message → Option Certificate
  | propose p => p.certificate
  | quitEpoch c | certificate _ c => some c
  | silence _ | vote _ | probe _ | answer _ => none

/-- The signatures in the certificate of a message. -/
def certified (m : Message) : Signatures := m.certificate?.elim .empty (·.signatures)

/-- Whether the message is a proposal with a certificate, which a byte in front announces. -/
def announces : Message → Bool
  | propose p => p.certificate.isSome
  | _ => false

/-- The bytes after the code, with this announcing byte and these entries in the certificate. -/
def spellBody (flag : UInt8) (entries : List (ProcessId × Signature)) : Message → Bytes
  | propose p =>
    littleEndian 8 p.epoch.toNat ++ (littleEndian 4 p.block.byteSize ++ (p.block.encode ++
      ([flag] ++ (p.certificate.elim [] (·.spell entries) ++ (littleEndian 2 p.sender.toNat ++
        (littleEndian 2 p.relay.toNat ++ p.signature.bytes.toList))))))
  | quitEpoch c => c.spell entries
  | certificate epoch c => littleEndian 8 epoch.toNat ++ c.spell entries
  | m => m.body

/-- The bytes of a message, with this announcing byte and these entries in the certificate. -/
def spell (m : Message) (flag : UInt8) (entries : List (ProcessId × Signature)) : Bytes :=
  [0] ++ ([m.kind.code] ++ m.spellBody flag entries)

theorem encode_eq_spell (m : Message) :
    m.encode = m.spell (if m.announces then 1 else 0) m.certified.entries := by
  cases m with
  | propose p =>
    obtain ⟨epoch, block, certificate, sender, relay, signature⟩ := p
    cases certificate with
    | none => simp [encode, body, spell, spellBody, announces, kind]
    | some c =>
      simp [encode, body, spell, spellBody, announces, kind, certified, certificate?,
        c.encode_eq_spell]
  | quitEpoch c =>
    simp [encode, body, spell, spellBody, kind, certified, certificate?, c.encode_eq_spell]
  | certificate epoch c =>
    simp [encode, body, spell, spellBody, kind, certified, certificate?, c.encode_eq_spell]
  | silence s => rfl
  | vote v => rfl
  | probe e => rfl
  | answer e => rfl

theorem length_encode (m : Message) : m.encode.length = m.byteSize := by
  cases m with
  | propose p =>
    obtain ⟨epoch, block, certificate, sender, relay, signature⟩ := p
    cases certificate with
    | none =>
      simp [encode, body, byteSize, block.length_encode, signature.bytes.length_toList]
      omega
    | some c =>
      simp [encode, body, byteSize, block.length_encode, c.length_encode,
        signature.bytes.length_toList]
      omega
  | silence s =>
    simp [encode, body, byteSize, s.signature.bytes.length_toList]
  | vote v =>
    simp [encode, body, byteSize, v.blockId.bytes.length_toList, v.signature.bytes.length_toList,
      (v.cosignature.getD .empty).bytes.length_toList]
  | quitEpoch c =>
    simp [encode, body, byteSize, c.length_encode]
    omega
  | certificate epoch c =>
    simp [encode, body, byteSize, c.length_encode]
    omega
  | probe e =>
    simp [encode, body, byteSize]
    omega
  | answer e =>
    simp [encode, body, byteSize]
    omega

/-- The bytes `raw` spell the message with this announcing byte and these entries: the byte is not
zero exactly when there is a certificate to announce, and the first signature of each process among
the entries is the one in the certificate.  A message without a certificate has no entries. -/
structure Spells (m : Message) (flag : UInt8) (entries : List (ProcessId × Signature))
    (raw : Bytes) : Prop where
  writable : m.Writable
  announced : flag ≠ 0 ↔ m.announces = true
  signatures : ∀ process, entries.lookup process = m.certified.get? process
  bytes : raw = m.spell flag entries

/-- What is encoded is spelled in increasing order. -/
theorem spells_encode {m : Message} (h : m.Writable) :
    m.Spells (if m.announces then 1 else 0) m.certified.entries m.encode where
  writable := h
  announced := by cases m.announces <;> decide
  signatures := m.certified.lookup_entries
  bytes := m.encode_eq_spell

/-- A message without a certificate is spelled without an announcement and without entries. -/
theorem spells_bare {m : Message} (h : m.Writable) (bare : m.certificate? = none) :
    m.Spells 0 [] (m.spell 0 []) where
  writable := h
  announced := by
    have hsilent : m.announces = false := by
      cases m with
      | propose p => simpa [announces, certificate?] using bare
      | silence | vote | quitEpoch | certificate | probe | answer => rfl
    simp [hsilent]
  signatures := by simp [certified, bare]
  bytes := rfl

namespace Spells

variable {m : Message} {flag flag' : UInt8} {es fs : List (ProcessId × Signature)} {raw : Bytes}

theorem ofEntries_eq (h : m.Spells flag es raw) : .ofEntries es = m.certified :=
  Roster.ofEntries_eq_iff.mpr h.signatures

theorem nil_of_bare (h : m.Spells flag es raw) (bare : m.certificate? = none) : es = [] := by
  cases es with
  | nil => rfl
  | cons e es =>
    have hfirst := h.signatures e.1
    simp [certified, bare] at hfirst

theorem zero_of_silent (h : m.Spells flag es raw) (silent : m.announces = false) : flag = 0 := by
  by_contra hflag
  rw [h.announced.mp hflag] at silent
  cases silent

/-- **The announcing byte and the entries can be read off.** -/
theorem unique (h : m.Spells flag es raw) (h' : m.Spells flag' fs raw) :
    flag = flag' ∧ es = fs := by
  have hbytes : m.spell flag es = m.spell flag' fs := h.bytes.symm.trans h'.bytes
  cases m with
  | propose p =>
    simp only [spell, spellBody, List.append_cancel_left_eq] at hbytes
    obtain ⟨hflag, hrest⟩ := List.append_inj hbytes rfl
    have hcertificate := List.append_cancel_right hrest
    refine ⟨by simpa using hflag, ?_⟩
    cases hc : p.certificate with
    | none => rw [h.nil_of_bare hc, h'.nil_of_bare hc]
    | some c =>
      rw [hc] at hcertificate
      exact Certificate.spell_injective hcertificate
  | quitEpoch c =>
    simp only [spell, spellBody, List.append_cancel_left_eq] at hbytes
    exact ⟨by rw [h.zero_of_silent rfl, h'.zero_of_silent rfl],
      Certificate.spell_injective hbytes⟩
  | certificate epoch c =>
    simp only [spell, spellBody, List.append_cancel_left_eq] at hbytes
    exact ⟨by rw [h.zero_of_silent rfl, h'.zero_of_silent rfl],
      Certificate.spell_injective hbytes⟩
  | silence | vote | probe | answer =>
    exact ⟨by rw [h.zero_of_silent rfl, h'.zero_of_silent rfl],
      by rw [h.nil_of_bare rfl, h'.nil_of_bare rfl]⟩

/-- **A message is encoded as it was spelled** exactly when the announcing byte is zero or one, and
the signers come in increasing order. -/
theorem encode_eq_iff (h : m.Spells flag es raw) :
    m.encode = raw ↔ (flag = 0 ∨ flag = 1) ∧ es.Pairwise fun a b => a.1 < b.1 := by
  constructor
  · rintro rfl
    obtain ⟨rfl, rfl⟩ := h.unique (spells_encode h.writable)
    refine ⟨?_, m.certified.sorted⟩
    cases m.announces <;> decide
  · rintro ⟨hflag, hsorted⟩
    have hentries : m.certified.entries = es := by
      rw [← h.ofEntries_eq, Roster.entries_ofEntries hsorted]
    have hannounced : (if m.announces then 1 else 0) = flag := by
      rcases hflag with rfl | rfl
      · have hsilent : ¬ m.announces = true := fun hyes => h.announced.mpr hyes rfl
        rw [if_neg hsilent]
      · rw [if_pos (h.announced.mp (by decide))]
    rw [h.bytes, encode_eq_spell, hentries, hannounced]

/-- More entries take more bytes. -/
theorem length_spell_le (m : Message) (flag flag' : UInt8) {es fs : List (ProcessId × Signature)}
    (h : es.length ≤ fs.length) : (m.spell flag es).length ≤ (m.spell flag' fs).length := by
  have hentries : es.length * Certificate.entrySize ≤ fs.length * Certificate.entrySize :=
    Nat.mul_le_mul_right _ h
  cases m with
  | propose p =>
    cases hc : p.certificate with
    | none => simp [spell, spellBody, hc]
    | some c =>
      simp [spell, spellBody, hc, c.length_spell]
      omega
  | quitEpoch c =>
    simp [spell, spellBody, c.length_spell]
    omega
  | certificate epoch c =>
    simp [spell, spellBody, c.length_spell]
    omega
  | silence | vote | probe | answer => exact Nat.le_refl _

/-- **No spelling of a message is shorter than its encoding.** -/
theorem length_encode_le (h : m.Spells flag es raw) : m.encode.length ≤ raw.length := by
  have hcount : m.certified.entries.length ≤ es.length := by
    have hle := Roster.count_ofEntries_le es
    rwa [h.ofEntries_eq] at hle
  rw [encode_eq_spell, h.bytes]
  exact length_spell_le m _ _ hcount

end Spells

end Message

end EpochConsensus
