import EpochConsensus.Proofs.Epoch.Paths
import EpochConsensus.Proofs.Epoch.Votes
import EpochConsensus.Proofs.Roster

/-! # What one more vote comes to

A vote without a second signature is counted unless its sender has voted for the block before
(`Host.onVote_plain`).  An epoch that has not handed over stays so exactly as long as no majority
comes together (`Host.onCounted_isOpen`), and takes the certificate of a majority over
(`Host.onCounted_valid`).  Whoever has voted has done so still after more votes
(`Host.signers_onVote`).
-/
namespace EpochConsensus

/-- What all have signed who have signed a quorum is a quorum. -/
theorem Certificate.hasQuorum_of_signers {c d : Certificate} {n : Nat}
    (signers : ∀ x ∈ c.signatures.entries, d.signedBy x.1 = true) (h : c.hasQuorum n = true) :
    d.hasQuorum n = true := by
  have hcount : c.count ≤ d.count := Roster.count_le fun process hprocess => by
    obtain ⟨x, hx, rfl⟩ := List.mem_map.mp (c.signatures.mem_processes.mpr hprocess)
    exact signers x hx
  simp only [hasQuorum, decide_eq_true_eq] at h ⊢
  omega

/-- Somebody has signed a quorum. -/
theorem Certificate.exists_signer {c : Certificate} {n : Nat} (h : c.hasQuorum n = true) :
    ∃ x, x ∈ c.signatures.entries := by
  simp only [hasQuorum, decide_eq_true_eq] at h
  exact List.exists_mem_of_length_pos (Nat.lt_of_le_of_lt (Nat.zero_le _) h)

namespace Host

variable {σ : Type} {p : Host σ} {heard : Endorsement → Prop} {s : Step σ} {v : Vote}

/-! ### Counting a vote -/

/-- A vote is counted unless its sender has voted for the block before. -/
theorem onVote_plain {proposer : ProcessId} (turn : p.proposer s.machine.epoch = .ok proposer)
    (active : s.machine.phase ≠ .commit) (current : v.epoch = s.machine.epoch)
    (plain : v.cosignature = none) :
    p.onVote v s = .ok (if
        (s.machine.votes.get s.machine.epoch v.height v.blockId).signedBy v.sender then s
      else p.onCounted proposer (decide (v.sender = proposer))
        (s.machine.counted proposer v) s) := by
  unfold onVote Machine.counted Certificate.addCarried
  rw [if_neg (by simp [active, current]), turn]
  simp only [plain, bind, Except.bind, pure, Except.pure, Bool.and_not_self, Bool.not_false,
    Bool.and_true, Bool.false_or]
  split <;> rfl

/-- Whoever has voted for a block has done so still once a vote is counted. -/
theorem signedBy_get_count (hs : p.Sound heard s.machine) (sorted : s.machine.votes.Sorted)
    (current : v.epoch = s.machine.epoch) (proposer : ProcessId) {process : ProcessId}
    {height : Height} {id : BlockId}
    (h : (s.machine.votes.get s.machine.epoch height id).signedBy process = true) :
    ((s.machine.votes.put (s.machine.counted proposer v)).get s.machine.epoch height id).signedBy
      process = true := by
  have hsubject : (s.machine.counted proposer v).statement.subject = .block v.height v.blockId := by
    rw [hs.statement_counted proposer current, Vote.statement]
  exact Votes.signedBy_get_put sorted hsubject (fun hold => signedBy_counted hold proposer) h

/-- The votes for its block are then those with the vote among them. -/
theorem get_count (hs : p.Sound heard s.machine) (current : v.epoch = s.machine.epoch)
    (proposer : ProcessId) :
    (s.machine.votes.put (s.machine.counted proposer v)).get s.machine.epoch v.height v.blockId =
      s.machine.counted proposer v :=
  Votes.get_put (by rw [hs.statement_counted proposer current, Vote.statement])

theorem signedBy_counted_sender (m : Machine) (proposer : ProcessId) (v : Vote) :
    (m.counted proposer v).signedBy v.sender = true := by
  simp [Machine.counted, Certificate.signedBy_add]

/-! ### What a counted vote changes -/

/-- The certificate of a majority is taken over by an epoch that is open, which it closes. -/
theorem onBlockCertificate_eq (p : Host σ) (c : Certificate) (s : Step σ) :
    ∃ phase valid locked timers, (p.onBlockCertificate c s).machine =
        { s.machine with phase, valid, locked, timers } ∧
      ((s.machine.phase = .ready ∧ phase = .locked ∨
          s.machine.phase = .epochChange ∧ phase = .finished) ∧ valid = some c ∨
        ¬ s.machine.IsOpen ∧ phase = s.machine.phase) := by
  unfold onBlockCertificate
  cases hphase : s.machine.phase with
  | ready =>
    obtain ⟨d, timers, -, heq⟩ := p.schedule_eq .equivocation
      { s with machine := { s.machine with valid := some c, phase := .locked, locked := some c } }
    refine ⟨.locked, some c, some c, timers, ?_, .inl ⟨.inl ⟨rfl, rfl⟩, rfl⟩⟩
    simp only [heq]
    rfl
  | epochChange => exact ⟨_, _, _, _, rfl, .inl ⟨.inr ⟨rfl, rfl⟩, rfl⟩⟩
  | inactive | locked | commit | finished =>
    exact ⟨_, _, _, _, rfl, .inr ⟨by simp [Machine.IsOpen, hphase], hphase⟩⟩

/-- Takes a certificate over, if a majority has signed it. -/
def certified (p : Host σ) (c : Certificate) (s : Step σ) : Step σ :=
  if c.hasQuorum p.count then p.onBlockCertificate c s else s

theorem certified_eq (p : Host σ) (c : Certificate) (s : Step σ) :
    ∃ phase valid locked timers, (p.certified c s).machine =
        { s.machine with phase, valid, locked, timers } ∧
      (s.machine.phase = .ready ∧ phase = .locked ∨
        s.machine.phase = .epochChange ∧ phase = .finished ∨ phase = s.machine.phase) := by
  unfold certified
  split
  · obtain ⟨phase, valid, locked, timers, heq, hphase⟩ := p.onBlockCertificate_eq c s
    refine ⟨phase, valid, locked, timers, heq, ?_⟩
    rcases hphase with ⟨hready | hleft, -⟩ | ⟨-, hsame⟩
    · exact .inl hready
    · exact .inr (.inl hleft)
    · exact .inr (.inr hsame)
  · exact ⟨_, _, _, _, rfl, .inr (.inr rfl)⟩

/-- Decides, if all have signed the certificate and the policy does not wait. -/
def hastened (p : Host σ) (c : Certificate) (s : Step σ) : Step σ :=
  if s.machine.policy.fastPath && c.count = p.count && s.machine.phase = .locked then
    p.decideLocked s
  else s

/-- Counting looks into the votes, takes a majority over, and may decide. -/
theorem onCounted_eq (proposer : ProcessId) (signed : Bool) (c : Certificate) (s : Step σ) :
    p.onCounted proposer signed c s = p.hastened c (p.certified c
      (p.looked proposer signed { s with machine.votes := s.machine.votes.put c })) := rfl

/-- A decision ends an epoch, or it waits for its block. -/
theorem decideLocked_eq (p : Host σ) (s : Step σ) : ∃ phase decision,
    (p.decideLocked s).machine = { s.machine with phase, decision } ∧
      (phase = s.machine.phase ∨ phase = .commit ∨ phase = .finished) := by
  rcases p.decideLocked_cases s with heq | ⟨d, id, -, -, heq⟩
  · exact ⟨_, _, by rw [heq], .inl rfl⟩
  · rw [heq]
    rcases p.tryToCommit_cases (decided d id s) with heq | ⟨_, _, -, -, -, -, heq⟩
    · exact ⟨_, _, by rw [heq]; rfl, .inr (.inl rfl)⟩
    · exact ⟨_, _, by rw [heq]; rfl, .inr (.inr rfl)⟩

/-- Only an epoch that is locked decides. -/
theorem hastened_eq (p : Host σ) (c : Certificate) (s : Step σ) : ∃ phase decision,
    (p.hastened c s).machine = { s.machine with phase, decision } ∧ (phase = s.machine.phase ∨
      s.machine.phase = .locked ∧ (phase = .commit ∨ phase = .finished)) := by
  unfold hastened
  split
  · rename_i hfast
    simp only [Bool.and_eq_true, decide_eq_true_eq] at hfast
    obtain ⟨phase, decision, heq, hphase⟩ := p.decideLocked_eq s
    exact ⟨phase, decision, heq, hphase.imp_right fun h => ⟨hfast.2, h⟩⟩
  · exact ⟨_, _, rfl, .inl rfl⟩

theorem hastened_isOpen (c : Certificate) (s : Step σ) :
    (p.hastened c s).machine.IsOpen ↔ s.machine.IsOpen := by
  obtain ⟨phase, decision, heq, hphase⟩ := p.hastened_eq c s
  rw [heq]
  unfold Machine.IsOpen
  rcases hphase with rfl | ⟨hlocked, rfl | rfl⟩
  · rfl
  · simp [hlocked]
  · simp [hlocked]

theorem certified_isOpen (c : Certificate) (s : Step σ) :
    (p.certified c s).machine.IsOpen ↔ s.machine.IsOpen ∧ c.hasQuorum p.count = false := by
  unfold certified
  cases hquorum : c.hasQuorum p.count with
  | false => simp
  | true =>
    obtain ⟨phase, valid, locked, timers, heq, hphase⟩ := p.onBlockCertificate_eq c s
    rw [if_pos rfl, heq]
    rcases hphase with ⟨⟨-, rfl⟩ | ⟨-, rfl⟩, -⟩ | ⟨hclosed, rfl⟩
    · simp [Machine.IsOpen]
    · simp [Machine.IsOpen]
    · simpa [Machine.IsOpen] using hclosed

/-- Looking into the votes exposes the proposer, unless it does nothing. -/
theorem looked_cases (proposer : ProcessId) (signed : Bool) (s : Step σ) :
    (p.looked proposer signed s).machine.equivocation = true ∨ p.looked proposer signed s = s := by
  unfold looked
  split
  · rcases p.exposeEquivocation_cases proposer s with ⟨heq, -⟩ | ⟨-, -, c, timers, -, heq⟩
    · exact .inr heq
    · exact .inl (by rw [heq, Step.forwardAll_machine])
  · exact .inr rfl

/-- Looking into the votes leaves an epoch as open as it was. -/
theorem looked_isOpen (proposer : ProcessId) (signed : Bool) (s : Step σ) :
    (p.looked proposer signed s).machine.IsOpen ↔ s.machine.IsOpen := by
  obtain ⟨phase, equivocation, timers, heq, hphase⟩ := p.looked_eq proposer signed s
  rw [heq]
  unfold Machine.IsOpen
  rcases hphase with rfl | rfl
  · rfl
  · cases s.machine.phase <;> simp [Phase.exposed]

/-- **An epoch stays open as long as no majority comes together.** -/
theorem onCounted_isOpen (proposer : ProcessId) (signed : Bool) (c : Certificate) (s : Step σ) :
    (p.onCounted proposer signed c s).machine.IsOpen ↔
      s.machine.IsOpen ∧ c.hasQuorum p.count = false := by
  rw [onCounted_eq, hastened_isOpen, certified_isOpen, looked_isOpen]
  rfl

/-- **An open epoch takes the certificate of a majority over.** -/
theorem onCounted_valid (proposer : ProcessId) (signed : Bool) {c : Certificate}
    (opened : s.machine.IsOpen) (quorum : c.hasQuorum p.count = true) :
    (p.onCounted proposer signed c s).machine.valid = some c := by
  let t := p.looked proposer signed { s with machine.votes := s.machine.votes.put c }
  have ht : t.machine.IsOpen := (looked_isOpen _ _ _).mpr opened
  obtain ⟨phase, decision, heq, -⟩ := p.hastened_eq c (p.certified c t)
  obtain ⟨phase', valid, locked, timers, heq', hphase⟩ := p.onBlockCertificate_eq c t
  rw [onCounted_eq, heq]
  unfold certified
  rw [if_pos quorum, heq']
  rcases hphase with ⟨-, hvalid⟩ | ⟨hclosed, -⟩
  · exact hvalid
  · exact absurd ht hclosed

/-- The votes are those from before, with the certificate in its place. -/
theorem onCounted_votes (proposer : ProcessId) (signed : Bool) (c : Certificate) (s : Step σ) :
    (p.onCounted proposer signed c s).machine.votes = s.machine.votes.put c := by
  let counted : Step σ := { s with machine.votes := s.machine.votes.put c }
  let t := p.looked proposer signed counted
  obtain ⟨_, _, hhastened, -⟩ := p.hastened_eq c (p.certified c t)
  obtain ⟨_, _, _, _, hcertified, -⟩ := p.certified_eq c t
  obtain ⟨_, _, _, hlooked, -⟩ := p.looked_eq proposer signed counted
  rw [onCounted_eq, hhastened, hcertified, hlooked]

/-- An epoch that waits for equivocations does not decide as it counts a vote. -/
theorem onCounted_patient (patient : s.machine.policy.fastPath = false)
    (phase : s.machine.phase = .ready ∨ s.machine.phase = .locked) (proposer : ProcessId)
    (signed : Bool) (c : Certificate) :
    (p.onCounted proposer signed c s).machine.equivocation = true ∨
      (p.onCounted proposer signed c s).machine.phase = .ready ∨
        (p.onCounted proposer signed c s).machine.phase = .locked := by
  let counted : Step σ := { s with machine.votes := s.machine.votes.put c }
  let t := p.looked proposer signed counted
  have hpolicy : (p.certified c t).machine.policy = s.machine.policy :=
    ((quiet_ite (quiet_exposeEquivocation proposer counted)).trans
      (quiet_ite (quiet_onBlockCertificate c t))).policy
  have hpatient : p.hastened c (p.certified c t) = p.certified c t :=
    if_neg (by simp [hpolicy, patient])
  obtain ⟨phase', valid, locked, timers, heq, hphase⟩ := p.certified_eq c t
  rw [onCounted_eq, hpatient, heq]
  rcases looked_cases proposer signed counted with hexposed | hsame
  · exact .inl hexposed
  · right
    have ht : t.machine.phase = s.machine.phase := by rw [show t = counted from hsame]
    rw [ht] at hphase
    rcases hphase with ⟨-, rfl⟩ | ⟨hleft, -⟩ | rfl
    · exact .inr rfl
    · rcases phase with hp | hp <;> simp [hp] at hleft
    · exact phase

/-- **Once a vote is received its sender has voted for the block**, and so have all who had voted
before. -/
theorem signers_onVote {s' : Step σ} (hs : p.Sound heard s.machine)
    (sorted : s.machine.votes.Sorted) {proposer : ProcessId}
    (turn : p.proposer s.machine.epoch = .ok proposer) (active : s.machine.phase ≠ .commit)
    (current : v.epoch = s.machine.epoch) (plain : v.cosignature = none)
    (received : p.onVote v s = .ok s') :
    s'.machine.votes.Sorted ∧
      (∀ process height id,
        (s.machine.votes.get s.machine.epoch height id).signedBy process = true →
          (s'.machine.votes.get s'.machine.epoch height id).signedBy process = true) ∧
      (s'.machine.votes.get s'.machine.epoch v.height v.blockId).signedBy v.sender = true := by
  rw [(quiet_onVote received).epoch]
  rw [onVote_plain turn active current plain] at received
  split at received
  · rename_i hknown
    cases received
    exact ⟨sorted, fun _ _ _ h => h, hknown⟩
  · cases received
    rw [onCounted_votes]
    refine ⟨sorted.put _, fun _ _ _ h => signedBy_get_count hs sorted current proposer h, ?_⟩
    rw [get_count hs current]
    exact signedBy_counted_sender _ _ _

end Host

end EpochConsensus
