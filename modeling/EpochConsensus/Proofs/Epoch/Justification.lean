import EpochConsensus.Epoch.Machine
import EpochConsensus.Proofs.Basic

/-! # Justified proposals

A proposal is justified when its certificate is a quorum of an earlier epoch and names the parent of
the block (`NamesParent`).  A proposer builds on the certificate that it holds
(`namesParent_of_nextBlock`), so what it proposes is valid (`isValid_proposal`), at every process of
a system of the same size (`isValid_congr`).
-/
namespace EpochConsensus

namespace Host

/-- The certificate names the parent of the block. -/
def NamesParent (c : Certificate) (b : Block) : Prop :=
  ∃ height id, c.statement = ⟨c.epoch, .block height id⟩ ∧ b.parent = some id ∧
    b.height.toNat = height.toNat + 1

/-- A proposer builds on the certificate that it holds. -/
theorem namesParent_of_nextBlock {c : Certificate} {value : Bytes} {b : Block}
    (block : ∃ height id, c.statement = ⟨c.epoch, .block height id⟩)
    (h : nextBlock (some c) value = .ok b) : NamesParent c b := by
  obtain ⟨height, id, hc⟩ := block
  have hid : c.blockId? = some id := by
    unfold Certificate.blockId?
    rw [hc]
  have hheight : c.height = height := by
    unfold Certificate.height
    rw [hc]
  unfold nextBlock at h
  simp only [hid] at h
  obtain ⟨next, hnext, h⟩ := bind_eq_ok.mp h
  unfold Block.create at h
  split at h
  · cases h
    rw [hheight] at hnext
    exact ⟨height, id, hc, rfl, toNat_of_successor hnext⟩
  · cases h

variable {σ : Type} {p : Host σ}

/-- A valid proposal comes from the proposer of its epoch and is justified. -/
theorem isValid_eq_true {proposal : Proposal} (h : p.isValid proposal = .ok true) :
    p.proposer proposal.epoch = .ok proposal.sender ∧ p.isJustified proposal = .ok true := by
  unfold isValid at h
  simp only [pure, Except.pure] at h
  obtain ⟨proposer, turn, h⟩ := bind_eq_ok.mp h
  obtain ⟨justified, hjustified, h⟩ := bind_eq_ok.mp h
  obtain ⟨hsender, rfl⟩ : proposal.sender = proposer ∧ justified = true := by simpa using h
  exact ⟨hsender ▸ turn, hjustified⟩

/-- A justified proposal builds on its certificate, which a majority has signed in an earlier
epoch. -/
theorem namesParent_of_isJustified {proposal : Proposal} {c : Certificate}
    (certificate : proposal.certificate = some c) (h : p.isJustified proposal = .ok true) :
    c.hasQuorum p.count = true ∧ c.epoch < proposal.epoch ∧ NamesParent c proposal.block := by
  unfold isJustified at h
  simp only [certificate, pure, Except.pure] at h
  cases hsubject : c.statement.subject with
  | silence => simp [Certificate.blockId?, hsubject] at h
  | block height id =>
    simp only [Certificate.blockId?, hsubject] at h
    split at h
    · rename_i hchecks
      obtain ⟨next, hnext, h⟩ := bind_eq_ok.mp h
      simp only [Bool.and_eq_true, decide_eq_true_eq, beq_iff_eq] at hchecks
      obtain ⟨⟨hquorum, hearlier⟩, hparent⟩ := hchecks
      have hheight : proposal.block.height = next := by simpa using h
      have hc : c.height = height := by
        unfold Certificate.height
        rw [hsubject]
      rw [hc] at hnext
      refine ⟨hquorum, hearlier, height, id, ?_, hparent, ?_⟩
      · rw [← hsubject]
        rfl
      · rw [hheight]
        exact toNat_of_successor hnext
    · cases h

/-- A certificate that a majority has signed in an earlier epoch justifies what builds on it. -/
theorem isJustified_of_namesParent {proposal : Proposal} {c : Certificate}
    (certificate : proposal.certificate = some c) (quorum : c.hasQuorum p.count = true)
    (earlier : c.epoch < proposal.epoch) (names : NamesParent c proposal.block) :
    p.isJustified proposal = .ok true := by
  obtain ⟨height, id, hc, hparent, hheight⟩ := names
  have hid : c.blockId? = some id := by
    unfold Certificate.blockId?
    rw [hc]
  have hnext : successor c.height = .ok proposal.block.height := by
    refine successor_of_toNat ?_
    unfold Certificate.height
    rw [hc]
    exact hheight
  unfold isJustified
  simp only [certificate, hid, quorum, hparent, hnext]
  simp [earlier, bind, Except.bind, pure, Except.pure]

/-- What a proposer builds on a certificate of an earlier epoch, or on none, is valid. -/
theorem isValid_proposal {e : Epoch} {parent : Option Certificate} {value : Bytes} {b : Block}
    (turn : p.proposer e = .ok p.id)
    (certified : ∀ c ∈ parent, (∃ height id, c.statement = ⟨c.epoch, .block height id⟩) ∧
      c.hasQuorum p.count = true ∧ c.epoch < e)
    (next : nextBlock parent value = .ok b) : p.isValid (p.proposal e b parent) = .ok true := by
  have hjustified : p.isJustified (p.proposal e b parent) = .ok true := by
    cases hparent : parent with
    | none =>
      rw [hparent] at next
      cases next
      rfl
    | some c =>
      rw [hparent] at next
      obtain ⟨block, quorum, earlier⟩ := certified c hparent
      exact isJustified_of_namesParent rfl quorum earlier (namesParent_of_nextBlock block next)
  have hturn : p.proposer (p.proposal e b parent).epoch = .ok p.id := turn
  unfold isValid
  rw [hturn, hjustified]
  show Except.ok (p.id == p.id && true) = _
  simp

/-- Whether a proposal is valid depends on the number of processes and on whose turn it is. -/
theorem isValid_congr {ρ : Type} {q : Host ρ} (count : q.count = p.count)
    (proposer : q.proposer = p.proposer) (proposal : Proposal) :
    q.isValid proposal = p.isValid proposal := by
  unfold isValid isJustified
  rw [count, proposer]

end Host

end EpochConsensus
