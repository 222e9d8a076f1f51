import EpochConsensus.Proofs.Epoch.Soundness

/-! # Counting ballots

What the handlers of votes, blame and decisions come to, case by case (`onVote_cases`,
`decideLocked_cases`, `tryToCommit_cases`).  All of them leave alone what the epoch votes for
(`Quiet`).
-/
namespace EpochConsensus.Host

variable {σ : Type} {p : Host σ} {heard : Endorsement → Prop} {s s' : Step σ}

/-! ### Handlers that decide and lock -/

/-- A request touches nothing but the host and the timers. -/
theorem schedule_eq (p : Host σ) (kind : TimeoutKind) (s : Step σ) :
    ∃ c timers, p.Asks s.toContext c ∧
      p.schedule kind s = { s with toContext := c, machine.timers := timers } := by
  unfold schedule
  split
  · exact ⟨_, _, .inl rfl, rfl⟩
  · exact ⟨_, _, .inr ⟨_, rfl⟩, rfl⟩

theorem schedule_moves (kind : TimeoutKind) (s : Step σ) :
    p.Moves heard s (p.schedule kind s) := by
  obtain ⟨c, timers, asked, heq⟩ := p.schedule_eq kind s
  exact heq ▸ .single (.schedule timers asked)

/-- A decided block is handed on, or nothing happens. -/
theorem tryToCommit_cases (p : Host σ) (s : Step σ) :
    p.tryToCommit s = s ∨ ∃ key proposal, s.machine.phase = .commit ∧
      s.machine.decision = some key ∧ s.machine.proposals.find? key.2 = some proposal ∧
      p.extendsChain proposal.block s.world = true ∧
      p.tryToCommit s = (s.enter .finished).emit (.decide s.machine.epoch proposal.block) := by
  unfold tryToCommit
  split
  · rename_i proposal phase hfound
    obtain ⟨key, decided, found⟩ := Option.bind_eq_some_iff.mp hfound
    split
    · rename_i linked
      exact .inr ⟨key, proposal, phase, decided, found, linked, rfl⟩
    · exact .inl rfl
  · exact .inl rfl

/-- The epoch with its decision on the locked block. -/
def decided (c : Certificate) (id : BlockId) (s : Step σ) : Step σ :=
  { s with machine := { s.machine with phase := .commit, decision := some (c.height, id) } }

/-- The locked block is decided, and handed on if that can be done; or there is no lock. -/
theorem decideLocked_cases (p : Host σ) (s : Step σ) :
    p.decideLocked s = s ∨ ∃ c id, s.machine.locked = some c ∧ c.blockId? = some id ∧
      p.decideLocked s = p.tryToCommit (decided c id s) := by
  unfold decideLocked
  split
  · exact .inl rfl
  · rename_i c locked
    split
    · exact .inl rfl
    · rename_i id names
      exact .inr ⟨c, id, locked, names, rfl⟩

/-- Looking into the votes does nothing, or it shows an equivocation; the epoch may ask for a
timeout before. -/
theorem exposeEquivocation_cases (p : Host σ) (proposer : ProcessId) (s : Step σ) :
    (p.exposeEquivocation proposer s = s ∧
        (s.machine.equivocation = true ∨ (s.machine.votes.signedBy proposer).length < 2)) ∨
      s.machine.equivocation = false ∧ 2 ≤ (s.machine.votes.signedBy proposer).length ∧
        ∃ c timers, p.Asks s.toContext c ∧ p.exposeEquivocation proposer s =
          ({ s with toContext := c, machine := { s.machine with
              timers := timers, equivocation := true, phase := s.machine.phase.exposed } } :
            Step σ).forwardAll (s.machine.evidence proposer) := by
  unfold exposeEquivocation
  split
  · rename_i hknown
    exact .inl ⟨rfl, by simpa using hknown⟩
  · rename_i hnew
    rw [Bool.or_eq_true, not_or, decide_eq_true_eq, Nat.not_lt] at hnew
    refine .inr ⟨Bool.eq_false_iff.mpr hnew.1, hnew.2, ?_⟩
    by_cases hready : s.machine.phase = .ready
    · -- the request touches nothing that the evidence is made of
      obtain ⟨c, timers, asked, heq⟩ := p.schedule_eq .quitEpoch
        { s with machine.equivocation := true, machine.phase := s.machine.phase.exposed }
      simp only [if_pos hready, heq]
      exact ⟨c, timers, asked, rfl⟩
    · simp only [if_neg hready]
      exact ⟨s.toContext, s.machine.timers, .inl rfl, rfl⟩

theorem exposeEquivocation_moves {proposer : ProcessId}
    (turn : p.proposer s.machine.epoch = .ok proposer) :
    p.Moves heard s (p.exposeEquivocation proposer s) := by
  rcases p.exposeEquivocation_cases proposer s with
    ⟨heq, -⟩ | ⟨fresh, two, c, timers, asked, heq⟩
  · rw [heq]
  · rw [heq]
    exact .head (.schedule timers asked) (.single (.expose turn fresh two))

/-! ### Handlers of votes and blame -/

/-- Asking for timeouts: what votes and decisions leave alone. -/
structure Quiet (p : Host σ) (s s' : Step σ) : Prop where
  epoch : s'.machine.epoch = s.machine.epoch
  policy : s'.machine.policy = s.machine.policy
  proposals : s'.machine.proposals = s.machine.proposals
  initialLocked : s'.machine.initialLocked = s.machine.initialLocked
  hasVoted : s'.machine.hasVoted = s.machine.hasVoted
  world : p.Requested s.world s'.world

namespace Quiet

theorem refl (s : Step σ) : p.Quiet s s := ⟨rfl, rfl, rfl, rfl, rfl, .refl⟩

theorem trans {t : Step σ} (h : p.Quiet s s') (h' : p.Quiet s' t) : p.Quiet s t where
  epoch := h'.epoch.trans h.epoch
  policy := h'.policy.trans h.policy
  proposals := h'.proposals.trans h.proposals
  initialLocked := h'.initialLocked.trans h.initialLocked
  hasVoted := h'.hasVoted.trans h.hasVoted
  world := h.world.trans h'.world

/-- A proposal that was worth a vote still is. -/
theorem votable (h : p.Quiet s s') {proposal : Proposal}
    (hv : p.Votable proposal s.machine s.world) : p.Votable proposal s'.machine s'.world := by
  obtain ⟨w, hext, hreq⟩ := hv.linked
  exact ⟨h.hasVoted.trans hv.fresh, h.epoch ▸ hv.turn, h.proposals ▸ hv.single,
    h.initialLocked ▸ hv.ranks, w, hext, hreq.trans h.world⟩

end Quiet

theorem requested_of_asks {c c' : Context σ} (h : p.Asks c c') : p.Requested c.world c'.world := by
  rcases h with rfl | ⟨t, rfl⟩
  · exact .refl
  · exact .single ⟨t, rfl⟩

theorem quiet_ite {c : Prop} [Decidable c] (h : p.Quiet s s') :
    p.Quiet s (if c then s' else s) := by
  split
  · exact h
  · exact .refl s

theorem quiet_schedule (kind : TimeoutKind) (s : Step σ) : p.Quiet s (p.schedule kind s) := by
  obtain ⟨c, timers, asked, heq⟩ := p.schedule_eq kind s
  rw [heq]
  exact ⟨rfl, rfl, rfl, rfl, rfl, requested_of_asks asked⟩

theorem quiet_tryToCommit (s : Step σ) : p.Quiet s (p.tryToCommit s) := by
  unfold tryToCommit
  split
  · split
    · exact ⟨rfl, rfl, rfl, rfl, rfl, .refl⟩
    · exact .refl s
  · exact .refl s

theorem quiet_decideLocked (s : Step σ) : p.Quiet s (p.decideLocked s) := by
  unfold decideLocked
  split
  · exact .refl s
  · split
    · exact .refl s
    · refine .trans ?_ (quiet_tryToCommit _)
      exact ⟨rfl, rfl, rfl, rfl, rfl, .refl⟩

theorem quiet_onBlockCertificate (c : Certificate) (s : Step σ) :
    p.Quiet s (p.onBlockCertificate c s) := by
  unfold onBlockCertificate
  cases s.machine.phase with
  | ready =>
    have h := p.quiet_schedule .equivocation
      { s with machine := { s.machine with valid := some c, phase := .locked, locked := some c } }
    exact ⟨h.epoch, h.policy, h.proposals, h.initialLocked, h.hasVoted, h.world⟩
  | _ => exact ⟨rfl, rfl, rfl, rfl, rfl, .refl⟩

theorem quiet_exposeEquivocation (proposer : ProcessId) (s : Step σ) :
    p.Quiet s (p.exposeEquivocation proposer s) := by
  rcases p.exposeEquivocation_cases proposer s with ⟨heq, -⟩ | ⟨-, -, c, timers, asked, heq⟩
  · rw [heq]
    exact .refl s
  · rw [heq]
    constructor <;> simp [requested_of_asks asked]

theorem onBlockCertificate_votes (c : Certificate) (s : Step σ) :
    (p.onBlockCertificate c s).machine.votes = s.machine.votes := by
  unfold onBlockCertificate
  cases s.machine.phase with
  | ready =>
    obtain ⟨d, timers, -, heq⟩ := p.schedule_eq .equivocation
      { s with machine := { s.machine with valid := some c, phase := .locked, locked := some c } }
    simp only [heq]
    rfl
  | _ => rfl

theorem quiet_onCounted (proposer : ProcessId) (signed : Bool) (c : Certificate) (s : Step σ) :
    p.Quiet s (p.onCounted proposer signed c s) := by
  have hput : p.Quiet s { s with machine.votes := s.machine.votes.put c } :=
    ⟨rfl, rfl, rfl, rfl, rfl, .refl⟩
  exact ((hput.trans (quiet_ite (quiet_exposeEquivocation _ _))).trans
    (quiet_ite (quiet_onBlockCertificate _ _))).trans (quiet_ite (quiet_decideLocked _))

/-- Whoever has signed the certificate of a vote's block stays among its signers. -/
theorem signedBy_counted {m : Machine} {process : ProcessId} {v : Vote}
    (h : (m.votes.get m.epoch v.height v.blockId).signedBy process = true)
    (proposer : ProcessId) : (m.counted proposer v).signedBy process = true := by
  unfold Machine.counted
  rw [Certificate.signedBy_add, Certificate.signedBy_addCarried h, Bool.or_true]

/-- What counting a vote comes to: nothing, or one more signature and what follows from it.  Unless
it is looked into, the vote holds no new signature of the proposer. -/
theorem onVote_cases {v : Vote} (h : p.onVote v s = .ok s') :
    s' = s ∨ ∃ proposer signed, s.machine.phase ≠ .commit ∧ v.epoch = s.machine.epoch ∧
      p.proposer s.machine.epoch = .ok proposer ∧
      (signed = false → (s.machine.counted proposer v).signedBy proposer =
        (s.machine.votes.get s.machine.epoch v.height v.blockId).signedBy proposer) ∧
      s' = p.onCounted proposer signed (s.machine.counted proposer v) s := by
  unfold onVote at h
  simp only [pure, Except.pure] at h
  split at h
  · exact .inl (by simpa using h.symm)
  · rename_i hcurrent
    simp only [Bool.or_eq_true, decide_eq_true_eq, not_or] at hcurrent
    obtain ⟨proposer, turn, h⟩ := bind_eq_ok.mp h
    split at h
    · exact .inl (by simpa using h.symm)
    · refine .inr ⟨proposer, _, hcurrent.1, Decidable.not_not.mp hcurrent.2, turn, ?_,
        (Except.ok.inj h).symm⟩
      -- neither the second signature nor the sender's is a new one of the proposer
      intro hunsigned
      rw [Bool.or_eq_false_iff, decide_eq_false_iff_not] at hunsigned
      obtain ⟨hcarried, hother⟩ := hunsigned
      unfold Machine.counted
      rw [Certificate.signedBy_add, decide_eq_false (Ne.symm hother), Bool.false_or]
      cases hbefore :
        (s.machine.votes.get s.machine.epoch v.height v.blockId).signedBy proposer with
      | true => exact Certificate.signedBy_addCarried hbefore proposer v
      | false =>
        rw [hbefore] at hcarried
        simpa using hcarried

theorem quiet_onVote {v : Vote} (h : p.onVote v s = .ok s') : p.Quiet s s' := by
  rcases onVote_cases h with rfl | ⟨proposer, signed, -, -, -, -, rfl⟩
  · exact .refl _
  · exact quiet_onCounted _ _ _ _

theorem ite_moves {c : Prop} [Decidable c] (h : c → p.Moves heard s s') :
    p.Moves heard s (if c then s' else s) := by
  split
  · exact h ‹c›
  · exact .refl

/-- The epoch with more blame on its proposer. -/
def blamed (b : Silence) (s : Step σ) : Step σ :=
  { s with machine.blame := s.machine.blame.add b.sender b.signature }

/-- What blame comes to: nothing, or one more signature, and with a majority the end of the epoch
or the way out of it. -/
theorem onSilence_cases (p : Host σ) (b : Silence) (s : Step σ) :
    p.onSilence b s = s ∨
      b.epoch = s.machine.epoch ∧ (s.machine.phase = .ready ∨ s.machine.phase = .locked) ∧
        p.onSilence b s = if (blamed b s).machine.blame.hasQuorum p.count then
          p.onSilenceCertificate (blamed b s) else blamed b s := by
  unfold onSilence
  split
  · exact .inl rfl
  · rename_i hcurrent
    simp only [Bool.or_eq_true, Bool.and_eq_true, decide_eq_true_eq, not_or] at hcurrent
    obtain ⟨hphase, hepoch⟩ := hcurrent
    split
    · exact .inl rfl
    · refine .inr ⟨Decidable.not_not.mp hepoch, ?_, rfl⟩
      -- the guard speaks of the two phases at once
      by_cases hready : s.machine.phase = .ready
      · exact .inl hready
      · exact .inr (Decidable.byContradiction fun hlocked => hphase ⟨hready, hlocked⟩)

theorem onSilenceCertificate_ready (phase : s.machine.phase = .ready) :
    p.onSilenceCertificate s = p.schedule .quitEpoch
      ((s.enter .epochChange).emit (.broadcast (.quitEpoch s.machine.blame))) := by
  unfold onSilenceCertificate
  rw [phase]

theorem onSilenceCertificate_locked (phase : s.machine.phase = .locked) :
    p.onSilenceCertificate s = s.enter .finished := by
  unfold onSilenceCertificate
  rw [phase]

/-- Blame leaves the epoch as it is, or makes it leave. -/
theorem onSilence_eq (p : Host σ) (b : Silence) (s : Step σ) : ∃ phase blame timers,
    (p.onSilence b s).machine = { s.machine with phase, blame, timers } ∧
      (phase = s.machine.phase ∨ phase = .epochChange ∧ s.machine.phase = .ready ∨
        phase = .finished) := by
  rcases p.onSilence_cases b s with heq | ⟨-, phase, heq⟩
  · exact ⟨s.machine.phase, s.machine.blame, s.machine.timers, by rw [heq], .inl rfl⟩
  rw [heq]
  split
  · rcases phase with phase | phase
    · rw [onSilenceCertificate_ready (s := blamed b s) phase]
      obtain ⟨c, timers, -, heq⟩ := p.schedule_eq .quitEpoch (((blamed b s).enter
        .epochChange).emit (.broadcast (.quitEpoch (blamed b s).machine.blame)))
      rw [heq]
      exact ⟨_, _, timers, rfl, .inr (.inl ⟨rfl, phase⟩)⟩
    · rw [onSilenceCertificate_locked (s := blamed b s) phase]
      exact ⟨_, _, _, rfl, .inr (.inr rfl)⟩
  · exact ⟨s.machine.phase, _, _, rfl, .inl rfl⟩

theorem onSilence_moves {b : Silence} (admitted : (Message.silence b).CarriesOnly heard)
    (s : Step σ) : p.Moves heard s (p.onSilence b s) := by
  rcases p.onSilence_cases b s with heq | ⟨current, phase, heq⟩
  · rw [heq]
  · rw [heq]
    refine .head (.blame current phase admitted) (ite_moves fun quorum => ?_)
    rcases phase with phase | phase
    · rw [onSilenceCertificate_ready (s := blamed b s) phase]
      exact .head (.leave phase quorum) (schedule_moves _ _)
    · rw [onSilenceCertificate_locked (s := blamed b s) phase]
      exact .single (.abandon phase quorum)

end EpochConsensus.Host
