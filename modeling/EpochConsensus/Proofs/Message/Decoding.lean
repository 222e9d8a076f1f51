import EpochConsensus.Proofs.Basic
import EpochConsensus.Proofs.Message.RoundTrip

/-! # What decodes

A reader that succeeds has taken off the bytes that its value is written as (`Read.rest_of_word` and
the others).  Followed through a whole message, this leaves two choices to whoever wrote the bytes:
the byte that announces a certificate, and the entries of the certificate.  So the bytes that decode
to a message are its spellings (`Message.decode_eq_ok_iff`).
-/
namespace EpochConsensus

namespace Read

variable {α β : Type} {c d : Cursor} {read : Read α} {a : α} {b : β}

/-! ### Taking a reader apart -/

theorem exists_of_bind {next : α → Read β} (h : (read >>= next) c = .ok (b, d)) :
    ∃ a c', read c = .ok (a, c') ∧ next a c' = .ok (b, d) := by
  obtain ⟨⟨a, c'⟩, hread, hnext⟩ := bind_eq_ok.mp h
  exact ⟨a, c', hread, hnext⟩

theorem exists_of_map {f : α → β} (h : (f <$> read) c = .ok (b, d)) :
    ∃ a, read c = .ok (a, d) ∧ f a = b := by
  obtain ⟨⟨a, c'⟩, hread, hresult⟩ := bind_eq_ok.mp h
  cases hresult
  exact ⟨a, hread, rfl⟩

/-- A value that was found apart takes nothing off. -/
theorem of_lift {x : Except Rejection α} (h : (liftM x : Read α) c = .ok (a, d)) :
    x = .ok a ∧ d = c := by
  cases x with
  | error r => cases h
  | ok y =>
    cases h
    exact ⟨rfl, rfl⟩

theorem exists_of_lift {x : Except Rejection α} {next : α → Read β}
    (h : (liftM x >>= next) c = .ok (b, d)) : ∃ a, x = .ok a ∧ next a c = .ok (b, d) := by
  obtain ⟨a, c', hlift, hnext⟩ := exists_of_bind h
  obtain ⟨hx, rfl⟩ := of_lift hlift
  exact ⟨a, hx, hnext⟩

/-- What was refused did not succeed. -/
theorem of_unless {p : Prop} [Decidable p] {r : Rejection} {next : Unit → Read β} {rest : Read β}
    (h : (if p then throw r >>= next else rest) c = .ok (b, d)) :
    ¬ p ∧ rest c = .ok (b, d) := by
  split at h
  · cases h
  · exact ⟨‹_›, h⟩

theorem exists_of_run {bytes : Bytes} (h : run read bytes = .ok a) :
    ∃ c d, read c = .ok (a, d) ∧ c.rest = bytes := by
  obtain ⟨⟨b, d⟩, hread, rfl⟩ := map_eq_ok.mp h
  exact ⟨_, d, hread, rfl⟩

/-! ### What was taken off -/

theorem rest_of_take {n : Nat} {o : Octets n} (h : take n c = .ok (o, d)) :
    c.rest = o.toList ++ d.rest := by
  unfold take Octets.ofList? at h
  split at h
  · rename_i head hhead
    split at hhead
    · cases hhead
      cases h
      exact (List.take_append_drop n c.rest).symm
    · cases hhead
  · cases h

theorem rest_of_number {n v : Nat} (h : number n c = .ok (v, d)) :
    c.rest = littleEndian n v ++ d.rest ∧ v < byteRange n := by
  obtain ⟨o, c', htake, hresult⟩ := exists_of_bind h
  cases hresult
  have hbytes := littleEndian_ofLittleEndian o.toList
  have hbound := ofLittleEndian_lt o.toList
  rw [o.length_toList] at hbytes hbound
  exact ⟨by rw [hbytes, rest_of_take htake], hbound⟩

theorem rest_of_byte {b : UInt8} (h : byte c = .ok (b, d)) : c.rest = [b] ++ d.rest := by
  obtain ⟨v, hnumber, rfl⟩ := exists_of_map h
  have hrest := (rest_of_number hnumber).1
  simpa [littleEndian] using hrest

theorem rest_of_process {p : ProcessId} (h : process c = .ok (p, d)) :
    c.rest = littleEndian 2 p.toNat ++ d.rest := by
  obtain ⟨v, hnumber, rfl⟩ := exists_of_map h
  obtain ⟨hrest, hbound⟩ := rest_of_number hnumber
  rwa [UInt16.toNat_ofNat_of_lt' hbound]

theorem rest_of_word {w : UInt64} (h : word c = .ok (w, d)) :
    c.rest = littleEndian 8 w.toNat ++ d.rest := by
  obtain ⟨v, hnumber, rfl⟩ := exists_of_map h
  obtain ⟨hrest, hbound⟩ := rest_of_number hnumber
  rwa [UInt64.toNat_ofNat_of_lt' hbound]

theorem rest_of_blockId {id : BlockId} (h : blockId c = .ok (id, d)) :
    c.rest = id.bytes.toList ++ d.rest := by
  obtain ⟨o, htake, rfl⟩ := exists_of_map h
  exact rest_of_take htake

theorem rest_of_takeRest {xs : Bytes} (h : takeRest c = .ok (xs, d)) :
    c.rest = xs ∧ d.rest = [] := by
  cases h
  exact ⟨rfl, rfl⟩

theorem rest_of_takeAllBut {n : Nat} {xs : Bytes} (h : takeAllBut n c = .ok (xs, d)) :
    c.rest = xs ++ d.rest := by
  unfold takeAllBut at h
  split at h
  · cases h
  · cases h
    exact (List.take_append_drop _ c.rest).symm

theorem rest_of_finish {u : Unit} (h : finish c = .ok (u, d)) : d = c ∧ c.rest = [] := by
  unfold finish at h
  split at h
  · rename_i hempty
    cases h
    exact ⟨rfl, List.isEmpty_iff.mp hempty⟩
  · cases h

end Read

open Read

/-! ### Blocks -/

namespace Block

/-- **Only its encoding decodes to a block.** -/
theorem encode_of_decode {bytes : Bytes} {b : Block} (decoded : decode bytes = .ok b) :
    b.encode = bytes := by
  obtain ⟨c, d, h, rfl⟩ := exists_of_run decoded
  obtain ⟨height, c₁, hheight, h⟩ := exists_of_bind h
  rw [rest_of_word hheight]
  split at h
  · obtain ⟨value, c₂, hvalue, h⟩ := exists_of_bind h
    cases h
    rw [(rest_of_takeRest hvalue).1]
    rfl
  · obtain ⟨parent, c₂, hparent, h⟩ := exists_of_bind h
    obtain ⟨value, c₃, hvalue, h⟩ := exists_of_bind h
    cases h
    rw [rest_of_blockId hparent, (rest_of_takeRest hvalue).1]
    rfl

end Block

/-! ### Certificates -/

namespace Certificate

variable {c d : Cursor}

theorem rest_of_readEntries {n : Nat} {s t : Signatures} (h : readEntries n s c = .ok (t, d)) :
    ∃ es, es.length = n ∧ t = s.insertAll es ∧ c.rest = es.flatMap encodeEntry ++ d.rest := by
  induction n generalizing s c with
  | zero =>
    cases h
    exact ⟨[], rfl, rfl, rfl⟩
  | succ n ih =>
    obtain ⟨process, c₁, hprocess, h⟩ := exists_of_bind h
    obtain ⟨signature, c₂, hsignature, h⟩ := exists_of_bind h
    obtain ⟨es, hlength, rfl, hrest⟩ := ih h
    refine ⟨(process, ⟨signature⟩) :: es, by rw [List.length_cons, hlength], rfl, ?_⟩
    rw [rest_of_process hprocess, rest_of_take hsignature, hrest]
    simp [encodeEntry]

theorem rest_of_readSubject {kind : CertificateKind} {subject : Subject}
    (h : readSubject kind c = .ok (subject, d)) :
    subject.kind = kind ∧ c.rest = subjectBytes subject ++ d.rest := by
  cases kind with
  | silence =>
    cases h
    exact ⟨rfl, rfl⟩
  | block =>
    obtain ⟨height, c₁, hheight, h⟩ := exists_of_bind h
    obtain ⟨id, c₂, hid, h⟩ := exists_of_bind h
    cases h
    refine ⟨rfl, ?_⟩
    rw [rest_of_word hheight, rest_of_blockId hid]
    simp [subjectBytes]

theorem code_of_ofCode {code : UInt8} {kind : CertificateKind}
    (h : CertificateKind.ofCode code = .ok kind) : code = kind.code := by
  unfold CertificateKind.ofCode at h
  split at h
  · rename_i hcode
    cases h
    exact hcode
  · split at h
    · rename_i hcode
      cases h
      exact hcode
    · cases h

/-- **Only entries in which its signatures come first decode to a certificate.** -/
theorem exists_of_decode {bytes : Bytes} {x : Certificate} (decoded : decode bytes = .ok x) :
    ∃ es, .ofEntries es = x.signatures ∧ bytes = x.spell es := by
  obtain ⟨c, d, h, rfl⟩ := exists_of_run decoded
  obtain ⟨code, c₁, hcode, h⟩ := exists_of_bind h
  dsimp only at h
  obtain ⟨hzero, h⟩ := of_unless h
  obtain ⟨kindCode, c₂, hkind, h⟩ := exists_of_bind h
  obtain ⟨kind, hof, h⟩ := exists_of_lift h
  obtain ⟨epoch, c₃, hepoch, h⟩ := exists_of_bind h
  obtain ⟨subject, c₄, hsubject, h⟩ := exists_of_bind h
  obtain ⟨_, _, ⟨⟩, h⟩ := exists_of_bind h
  obtain ⟨hwhole, h⟩ := of_unless h
  obtain ⟨signatures, c₅, hentries, h⟩ := exists_of_bind h
  cases h
  obtain ⟨es, hlength, rfl, hrest⟩ := rest_of_readEntries hentries
  obtain ⟨rfl, habout⟩ := rest_of_readSubject hsubject
  have hcode₀ : code = 0 := not_not.mp hzero
  -- whole entries leave nothing behind them
  have hend : d.rest = [] := by
    have hsize := congrArg List.length hrest
    have hall := Nat.div_mul_cancel (Nat.dvd_of_mod_eq_zero (not_not.mp hwhole))
    rw [List.length_append, length_flatMap_encodeEntry, hlength, hall] at hsize
    exact List.length_eq_zero_iff.mp (by omega)
  refine ⟨es, rfl, ?_⟩
  rw [rest_of_byte hcode, rest_of_byte hkind, rest_of_word hepoch, habout, hrest, hend, hcode₀,
    code_of_ofCode hof, List.append_nil]
  rfl

end Certificate

/-! ### Messages -/

namespace Message

variable {c d : Cursor}

theorem rest_of_readSignature {s : Signature} (h : readSignature c = .ok (s, d)) :
    c.rest = s.bytes.toList ++ d.rest := by
  obtain ⟨o, htake, rfl⟩ := exists_of_map h
  exact rest_of_take htake

theorem rest_of_readSilence {s : Silence} (h : readSilence c = .ok (s, d)) :
    c.rest = (silence s).body ++ d.rest := by
  obtain ⟨epoch, c₁, hepoch, h⟩ := exists_of_bind h
  obtain ⟨sender, c₂, hsender, h⟩ := exists_of_bind h
  obtain ⟨signature, c₃, hsignature, h⟩ := exists_of_bind h
  cases h
  rw [rest_of_word hepoch, rest_of_process hsender, rest_of_readSignature hsignature]
  simp [body]

theorem rest_of_readVote {v : Vote} (h : readVote c = .ok (v, d)) :
    v.cosignature ≠ some .empty ∧ c.rest = (vote v).body ++ d.rest := by
  obtain ⟨epoch, c₁, hepoch, h⟩ := exists_of_bind h
  obtain ⟨height, c₂, hheight, h⟩ := exists_of_bind h
  obtain ⟨blockId, c₃, hblock, h⟩ := exists_of_bind h
  obtain ⟨cosigner, c₄, hcosigner, h⟩ := exists_of_bind h
  obtain ⟨second, c₅, hsecond, h⟩ := exists_of_bind h
  obtain ⟨sender, c₆, hsender, h⟩ := exists_of_bind h
  obtain ⟨signature, c₇, hsignature, h⟩ := exists_of_bind h
  cases h
  -- an all-zero second signature is written back where there is none
  have hback : (if second.isEmpty = true then none else some second).getD .empty = second := by
    by_cases hempty : second = .empty
    · simp [Signature.isEmpty, hempty]
    · simp [Signature.isEmpty, hempty]
  refine ⟨by simp [Signature.isEmpty], ?_⟩
  rw [rest_of_word hepoch, rest_of_word hheight, rest_of_blockId hblock, rest_of_process hcosigner,
    rest_of_readSignature hsecond, rest_of_process hsender, rest_of_readSignature hsignature]
  simp [body, hback]

theorem rest_of_readEcho {e : Echo} (h : readEcho c = .ok (e, d)) :
    c.rest = (probe e).body ++ d.rest := by
  obtain ⟨payload, c₁, hpayload, h⟩ := exists_of_bind h
  obtain ⟨sender, c₂, hsender, h⟩ := exists_of_bind h
  cases h
  rw [rest_of_takeAllBut hpayload, rest_of_process hsender]
  simp [body]

/-- What follows the certificate of a proposal. -/
theorem rest_of_trailer (make : ProcessId → ProcessId → Signature → Proposal) {p : Proposal}
    (h : (do
      let sender ← process
      let relay ← process
      return make sender relay (← readSignature)) c = .ok (p, d)) :
    ∃ sender relay signature, make sender relay signature = p ∧
      c.rest = littleEndian 2 sender.toNat ++ (littleEndian 2 relay.toNat ++
        signature.bytes.toList) ++ d.rest := by
  obtain ⟨sender, c₁, hsender, h⟩ := exists_of_bind h
  obtain ⟨relay, c₂, hrelay, h⟩ := exists_of_bind h
  obtain ⟨signature, c₃, hsignature, h⟩ := exists_of_bind h
  cases h
  refine ⟨sender, relay, signature, rfl, ?_⟩
  rw [rest_of_process hsender, rest_of_process hrelay, rest_of_readSignature hsignature]
  simp

theorem rest_of_readProposal {p : Proposal} (h : readProposal c = .ok (p, d)) :
    ∃ flag es, (propose p).Spells flag es ((propose p).spell flag es) ∧
      c.rest = (propose p).spellBody flag es ++ d.rest := by
  obtain ⟨epoch, c₁, hepoch, h⟩ := exists_of_bind h
  obtain ⟨size, c₂, hsize, h⟩ := exists_of_bind h
  obtain ⟨encoded, c₃, hencoded, h⟩ := exists_of_bind h
  obtain ⟨block, hblock, h⟩ := exists_of_lift h
  obtain ⟨flag, c₄, hflag, h⟩ := exists_of_bind h
  have hencode := Block.encode_of_decode hblock
  have hlength : block.byteSize = size := by
    rw [← block.length_encode, hencode, encoded.length_toList]
  obtain ⟨hnumber, hbound⟩ := rest_of_number hsize
  have hshort : block.byteSize < 2 ^ 32 := by rwa [hlength]
  have hfront : c.rest = littleEndian 8 epoch.toNat ++ (littleEndian 4 block.byteSize ++
      (block.encode ++ ([flag] ++ c₄.rest))) := by
    rw [rest_of_word hepoch, hnumber, rest_of_take hencoded, rest_of_byte hflag, hencode, hlength]
  dsimp only at h
  split at h
  · rename_i hzero
    subst hzero
    obtain ⟨sender, relay, signature, rfl, htrailer⟩ :=
      rest_of_trailer (Proposal.mk epoch block none) h
    refine ⟨0, [], spells_bare hshort rfl, ?_⟩
    rw [hfront, htrailer]
    simp [spellBody]
  · rename_i hsome
    obtain ⟨written, c₅, hwritten, h⟩ := exists_of_bind h
    obtain ⟨certificate, c₆, hcertificate, h⟩ := exists_of_bind h
    obtain ⟨x, hlift, rfl⟩ := exists_of_map hcertificate
    obtain ⟨hdecode, hsame⟩ := of_lift hlift
    rw [hsame] at h
    obtain ⟨es, hes, hspell⟩ := Certificate.exists_of_decode hdecode
    obtain ⟨sender, relay, signature, rfl, htrailer⟩ :=
      rest_of_trailer (Proposal.mk epoch block (some x)) h
    refine ⟨flag, es, ⟨hshort, by simp [announces, hsome], Roster.ofEntries_eq_iff.mp hes, rfl⟩, ?_⟩
    rw [hfront, rest_of_takeAllBut hwritten, hspell, htrailer]
    simp [spellBody]

/-- A body that is read is spelled, with some announcing byte and some entries. -/
theorem rest_of_readBody {kind : MessageKind} {m : Message} (h : readBody kind c = .ok (m, d)) :
    m.kind = kind ∧ ∃ flag es, m.Spells flag es (m.spell flag es) ∧
      c.rest = m.spellBody flag es ++ d.rest := by
  cases kind with
  | propose =>
    obtain ⟨p, hread, rfl⟩ := exists_of_map h
    exact ⟨rfl, rest_of_readProposal hread⟩
  | silence =>
    obtain ⟨s, hread, rfl⟩ := exists_of_map h
    exact ⟨rfl, 0, [], spells_bare trivial rfl, rest_of_readSilence hread⟩
  | vote =>
    obtain ⟨v, hread, rfl⟩ := exists_of_map h
    obtain ⟨hwritable, hrest⟩ := rest_of_readVote hread
    exact ⟨rfl, 0, [], spells_bare hwritable rfl, hrest⟩
  | quitEpoch =>
    obtain ⟨bytes, c₁, hbytes, h⟩ := exists_of_bind h
    obtain ⟨x, hdecode, h⟩ := exists_of_lift h
    cases h
    obtain ⟨es, hes, rfl⟩ := Certificate.exists_of_decode hdecode
    obtain ⟨hrest, hend⟩ := rest_of_takeRest hbytes
    refine ⟨rfl, 0, es, ⟨trivial, by simp [announces], Roster.ofEntries_eq_iff.mp hes, rfl⟩, ?_⟩
    rw [hrest, hend, List.append_nil]
    rfl
  | certificate =>
    obtain ⟨epoch, c₁, hepoch, h⟩ := exists_of_bind h
    obtain ⟨bytes, c₂, hbytes, h⟩ := exists_of_bind h
    obtain ⟨x, hdecode, h⟩ := exists_of_lift h
    cases h
    obtain ⟨es, hes, rfl⟩ := Certificate.exists_of_decode hdecode
    obtain ⟨hrest, hend⟩ := rest_of_takeRest hbytes
    refine ⟨rfl, 0, es, ⟨trivial, by simp [announces], Roster.ofEntries_eq_iff.mp hes, rfl⟩, ?_⟩
    rw [rest_of_word hepoch, hrest, hend, List.append_nil]
    rfl
  | probe =>
    obtain ⟨e, hread, rfl⟩ := exists_of_map h
    exact ⟨rfl, 0, [], spells_bare trivial rfl, rest_of_readEcho hread⟩
  | answer =>
    obtain ⟨e, hread, rfl⟩ := exists_of_map h
    exact ⟨rfl, 0, [], spells_bare trivial rfl, rest_of_readEcho hread⟩

theorem code_of_ofCode {code : UInt8} {kind : MessageKind}
    (h : MessageKind.ofCode code = .ok kind) : code = kind.code := by
  unfold MessageKind.ofCode at h
  split at h <;> cases h
  all_goals
    refine UInt8.toNat_inj.mp ?_
    assumption

/-- **Only its spellings decode to a message.** -/
theorem exists_spells {raw : Bytes} {m : Message} (decoded : decode raw = .ok m) :
    ∃ flag es, m.Spells flag es raw := by
  obtain ⟨c, d, h, rfl⟩ := exists_of_run decoded
  obtain ⟨code, c₁, hcode, h⟩ := exists_of_bind h
  dsimp only at h
  obtain ⟨hzero, h⟩ := of_unless h
  obtain ⟨kindCode, c₂, hkind, h⟩ := exists_of_bind h
  obtain ⟨kind, hof, h⟩ := exists_of_lift h
  obtain ⟨message, c₃, hbody, h⟩ := exists_of_bind h
  obtain ⟨_, c₄, hfinish, h⟩ := exists_of_bind h
  cases h
  obtain ⟨rfl, flag, es, hspells, hrest⟩ := rest_of_readBody hbody
  obtain ⟨rfl, hend⟩ := rest_of_finish hfinish
  have hcode₀ : code = 0 := not_not.mp hzero
  refine ⟨flag, es, hspells.writable, hspells.announced, hspells.signatures, ?_⟩
  rw [rest_of_byte hcode, rest_of_byte hkind, hrest, hend, hcode₀, code_of_ofCode hof,
    List.append_nil]
  rfl

/-- **The bytes that decode to a message are its spellings.** -/
theorem decode_eq_ok_iff {raw : Bytes} {m : Message} :
    decode raw = .ok m ↔ ∃ flag es, m.Spells flag es raw := by
  constructor
  · exact exists_spells
  · rintro ⟨flag, es, h⟩
    exact decode_of_spells h

/-- **Decoding normalises.**  What decodes to a message does so again when it is encoded, and the
encoding is no longer.  The bytes are spelled in one way only, and they are the encoding exactly
when the announcing byte is zero or one and the signers of the certificate come in increasing order.
Whoever writes bytes that decode to the message has no other choice than that byte, and the entries
of the certificate as long as its signatures come first. -/
theorem decode_normalises {raw : Bytes} {m : Message} (decoded : decode raw = .ok m) :
    decode m.encode = .ok m ∧ m.encode.length ≤ raw.length ∧
    (∀ p, m = propose p → (p.block.parent = none ↔ p.block.height = 0)) ∧
    (∃ flag es, m.Spells flag es raw ∧
      (∀ other flag' fs, Spells other flag' fs raw → other = m ∧ flag' = flag ∧ fs = es) ∧
      (m.encode = raw ↔ (flag = 0 ∨ flag = 1) ∧ es.Pairwise fun a b => a.1 < b.1)) ∧
    ∀ other, decode other = .ok m ↔ ∃ flag es, m.Spells flag es other := by
  obtain ⟨flag, es, h⟩ := exists_spells decoded
  refine ⟨decode_encode h.writable, h.length_encode_le, ?_, ?_, fun other => decode_eq_ok_iff⟩
  · rintro p -
    exact p.block.rooted
  · refine ⟨flag, es, h, ?_, h.encode_eq_iff⟩
    intro other flag' fs h'
    obtain rfl : other = m := by
      have hdecode := (decode_of_spells h').symm.trans decoded
      exact Except.ok.inj hdecode
    obtain ⟨hflag, hes⟩ := h'.unique h
    exact ⟨rfl, hflag, hes⟩

/-- The signatures of `certifiedProposal` out of order, and one signer again. -/
def reorderedEntries : List (ProcessId × Signature) :=
  [(2, ⟨.fill 64 3⟩), (0, ⟨.fill 64 1⟩), (2, ⟨.fill 64 9⟩)]

theorem spells_reordered : (propose certifiedProposal).Spells 7 reorderedEntries
    ((propose certifiedProposal).spell 7 reorderedEntries) where
  writable := show certifiedProposal.block.byteSize < 2 ^ 32 by decide
  announced := by decide
  signatures := Roster.ofEntries_eq_iff.mp (by decide)
  bytes := rfl

/-- Such bytes decode, but are not what is encoded. -/
theorem decode_normalises_reordered :
    decode ((propose certifiedProposal).spell 7 reorderedEntries) =
        .ok (propose certifiedProposal) ∧
      (propose certifiedProposal).encode ≠
        (propose certifiedProposal).spell 7 reorderedEntries := by
  have decoded := decode_of_spells spells_reordered
  obtain ⟨-, -, -, ⟨flag, es, -, honly, hencode⟩, -⟩ := decode_normalises decoded
  obtain ⟨-, rfl, rfl⟩ := honly _ _ _ spells_reordered
  refine ⟨decoded, ?_⟩
  intro h
  exact absurd (hencode.mp h).1 (by decide)

end Message

end EpochConsensus
