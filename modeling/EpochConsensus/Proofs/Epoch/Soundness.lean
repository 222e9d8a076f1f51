import EpochConsensus.Proofs.Epoch.Moves

/-! # What an epoch holds

What an epoch holds is `Sound` when all of it was heard and belongs to the epoch: its proposals are
valid, its certificates are of its own votes.  An epoch that was started and is sound stays so with
every move (`Move.running`), and no move changes whose epoch it is (`Move.fixed`).
-/
namespace EpochConsensus

theorem Certificate.carriesOnly_add {heard : Endorsement → Prop} {c : Certificate}
    {process : ProcessId} {signature : Signature} (hc : c.CarriesOnly heard)
    (h : heard ⟨process, c.statement, signature⟩) :
    (c.add process signature).CarriesOnly heard := by
  intro e he
  rcases mem_endorsements_add he with rfl | hold
  · exact h
  · exact hc e hold

/-- A proposal carries every signature of the vote that it amounts to. -/
theorem Proposal.carriesOnly_vote {heard : Endorsement → Prop} {proposal : Proposal}
    (h : (Message.propose proposal).CarriesOnly heard) :
    (Message.vote proposal.vote).CarriesOnly heard := by
  intro e he
  have hown : e = ⟨proposal.sender, proposal.statement, proposal.signature⟩ := by
    simpa [Message.endorsements, vote, Vote.statement, statement] using he
  exact h e (hown ▸ List.mem_cons_self)

theorem Proposal.carriesOnly_certificate {heard : Endorsement → Prop} {proposal : Proposal}
    (h : (Message.propose proposal).CarriesOnly heard) :
    ∀ c ∈ proposal.certificate, c.CarriesOnly heard := by
  intro c hc e he
  obtain hc : proposal.certificate = some c := hc
  exact h e (List.mem_cons_of_mem _ (by simpa [hc] using he))

namespace Host

variable {σ : Type} (p : Host σ) (heard : Endorsement → Prop)

/-- What an epoch holds was heard and is of this epoch. -/
structure Sound (m : Machine) : Prop where
  pending : ∀ x ∈ m.pending, x.CarriesOnly heard
  proposals : ∀ x ∈ m.proposals.toList,
    x.epoch = m.epoch ∧ p.isValid x = .ok true ∧ (Message.propose x).CarriesOnly heard
  votes : ∀ c ∈ m.votes.toList,
    (∃ height id, c.statement = ⟨m.epoch, .block height id⟩) ∧ c.CarriesOnly heard
  blame : m.blame.statement = ⟨m.epoch, .silence⟩ ∧ m.blame.CarriesOnly heard
  valid : ∀ c ∈ m.valid, c.CarriesOnly heard
  locked : ∀ c ∈ m.locked, c.CarriesOnly heard

/-- A started epoch that is sound. -/
structure Running (s : Step σ) : Prop where
  started : s.machine.phase ≠ .inactive
  sound : p.Sound heard s.machine

variable {p heard} {s s' : Step σ}

/-- Who has heard more holds nothing unheard. -/
theorem Sound.mono {heard' : Endorsement → Prop} {m : Machine} (hs : p.Sound heard m)
    (hle : ∀ e, heard e → heard' e) : p.Sound heard' m where
  pending x hx e he := hle e (hs.pending x hx e he)
  proposals x hx := by
    obtain ⟨hepoch, hvalid, hcarries⟩ := hs.proposals x hx
    exact ⟨hepoch, hvalid, fun e he => hle e (hcarries e he)⟩
  votes c hc := ⟨(hs.votes c hc).1, fun e he => hle e ((hs.votes c hc).2 e he)⟩
  blame := ⟨hs.blame.1, fun e he => hle e (hs.blame.2 e he)⟩
  valid c hc e he := hle e (hs.valid c hc e he)
  locked c hc e he := hle e (hs.locked c hc e he)

/-! ### Counting votes -/

namespace Sound

variable {m : Machine}

/-- The certificate that a vote is added to is on the vote's statement. -/
theorem statement_get (hs : p.Sound heard m) {v : Vote} (current : v.epoch = m.epoch) :
    (m.votes.get m.epoch v.height v.blockId).statement = v.statement := by
  unfold Votes.get
  cases h : m.votes.find? v.height v.blockId with
  | none => simp [Certificate.block, Vote.statement, current]
  | some c =>
    obtain ⟨hmem, hsubject⟩ := m.votes.mem_find? h
    obtain ⟨⟨height, id, hc⟩, -⟩ := hs.votes c hmem
    rw [hc] at hsubject
    have hblock : Subject.block height id = .block v.height v.blockId := hsubject
    simp [hc, Vote.statement, current, hblock]

theorem carriesOnly_get (hs : p.Sound heard m) (height : Height) (id : BlockId) :
    (m.votes.get m.epoch height id).CarriesOnly heard := by
  unfold Votes.get
  cases h : m.votes.find? height id with
  | none =>
    intro e he
    cases he
  | some c => exact (hs.votes c (m.votes.mem_find? h).1).2

theorem statement_counted (hs : p.Sound heard m) (proposer : ProcessId) {v : Vote}
    (current : v.epoch = m.epoch) : (m.counted proposer v).statement = v.statement := by
  simp [Machine.counted, hs.statement_get current]

theorem carriesOnly_counted (hs : p.Sound heard m) (proposer : ProcessId) {v : Vote}
    (current : v.epoch = m.epoch) (admitted : (Message.vote v).CarriesOnly heard) :
    (m.counted proposer v).CarriesOnly heard := by
  apply Certificate.carriesOnly_add
  · intro e he
    rcases Certificate.mem_endorsements_addCarried he with ⟨signature, hsig, rfl⟩ | hold
    · obtain hsig : v.cosignature = some signature := hsig
      rw [hs.statement_get current]
      exact admitted _ (by simp [Message.endorsements, hsig])
    · exact hs.carriesOnly_get _ _ e hold
  · rw [Certificate.statement_addCarried, hs.statement_get current]
    exact admitted _ (by simp [Message.endorsements])

/-- Counting a vote that was heard leaves the epoch sound. -/
theorem count (hs : p.Sound heard m) {proposer : ProcessId} {v : Vote}
    (current : v.epoch = m.epoch) (admitted : (Message.vote v).CarriesOnly heard) :
    p.Sound heard { m with votes := m.votes.put (m.counted proposer v) } := by
  refine { hs with votes := ?_ }
  intro c hc
  rcases m.votes.mem_of_mem_put hc with rfl | hold
  · refine ⟨⟨v.height, v.blockId, ?_⟩, hs.carriesOnly_counted proposer current admitted⟩
    rw [hs.statement_counted proposer current, Vote.statement, current]
  · exact hs.votes c hold

theorem enlist (hs : p.Sound heard m) {proposal : Proposal}
    (valid : p.isValid proposal = .ok true)
    (admitted : (Message.propose proposal).CarriesOnly heard) :
    p.Sound heard (m.enlist proposal) := by
  unfold Machine.enlist
  split
  · rename_i current
    refine { hs with proposals := ?_ }
    intro x hx
    rcases m.proposals.mem_of_mem_add hx with rfl | hold
    · exact ⟨current, valid, admitted⟩
    · exact hs.proposals x hold
  · exact hs

theorem addBlame (hs : p.Sound heard m) {b : Silence} (current : b.epoch = m.epoch)
    (admitted : (Message.silence b).CarriesOnly heard) :
    p.Sound heard { m with blame := m.blame.add b.sender b.signature } := by
  refine { hs with blame := ⟨hs.blame.1, Certificate.carriesOnly_add hs.blame.2 ?_⟩ }
  rw [hs.blame.1, ← current]
  exact admitted _ (by simp [Message.endorsements, Silence.statement])

end Sound

/-! ### What moves keep -/

/-- A proposal is recorded, or nothing is. -/
theorem enlist_eq (m : Machine) (proposal : Proposal) :
    ∃ proposals, m.enlist proposal = { m with proposals } := by
  unfold Machine.enlist
  split
  · exact ⟨_, rfl⟩
  · exact ⟨_, rfl⟩

/-- A split proposal changes nothing in the epoch. -/
theorem proposeSplit_machine (done : p.proposeSplit s = .ok s') : s'.machine = s.machine := by
  unfold proposeSplit at done
  simp only [pure, Except.pure] at done
  split at done
  · simp only [bind_eq_ok] at done
    obtain ⟨a, -, b, -, done⟩ := done
    cases done
    rfl
  · cases done
    rfl

/-- What no call changes in an epoch. -/
structure Fixed (s s' : Step σ) : Prop where
  epoch : s'.machine.epoch = s.machine.epoch
  policy : s'.machine.policy = s.machine.policy
  initialLocked : s'.machine.initialLocked = s.machine.initialLocked

theorem Move.fixed (h : p.Move heard s s') : Fixed s s' := by
  cases h with
  | @enlist proposal =>
    obtain ⟨proposals, heq⟩ := enlist_eq s.machine proposal
    rw [heq]
    exact ⟨rfl, rfl, rfl⟩
  | expose => constructor <;> rw [Step.forwardAll_machine]
  | split faulty done => constructor <;> rw [proposeSplit_machine done]
  | _ => exact ⟨rfl, rfl, rfl⟩

theorem Moves.fixed (h : p.Moves heard s s') : Fixed s s' := by
  induction h with
  | refl => exact ⟨rfl, rfl, rfl⟩
  | tail _ move ih =>
    exact ⟨move.fixed.epoch.trans ih.epoch, move.fixed.policy.trans ih.policy,
      move.fixed.initialLocked.trans ih.initialLocked⟩

theorem Phase.exposed_ne_inactive {phase : Phase} (h : phase ≠ .inactive) :
    phase.exposed ≠ .inactive := by
  cases phase <;> simp_all [Phase.exposed]

theorem Move.running (h : p.Move heard s s') (hs : p.Running heard s) : p.Running heard s' := by
  obtain ⟨started, sound⟩ := hs
  cases h with
  | schedule => exact ⟨started, { sound with }⟩
  | refuse => exact ⟨started, sound⟩
  | enlist fresh valid admitted asked =>
    refine ⟨?_, sound.enlist valid admitted⟩
    simp only [Machine.enlist]
    split <;> exact started
  | relay => exact ⟨started, sound⟩
  | count current turn admitted => exact ⟨started, sound.count current admitted⟩
  | expose =>
    constructor <;> rw [Step.forwardAll_machine]
    · exact Phase.exposed_ne_inactive started
    · exact { sound with }
  | lock phase counted quorum =>
    have hc := (sound.votes _ counted).2
    refine ⟨by simp, { sound with valid := ?_, locked := ?_ }⟩ <;> (rintro _ ⟨⟩; exact hc)
  | pass phase counted quorum lock =>
    have hc := (sound.votes _ counted).2
    refine ⟨by simp, { sound with valid := ?_, locked := ?_ }⟩
    · rintro _ ⟨⟩
      exact hc
    -- the lock that stays was heard before, and one that is taken over is of the epoch's votes
    · subst lock
      simp only [Step.emit_machine]
      split
      · exact sound.locked
      · rintro _ ⟨⟩
        exact hc
  | decide => exact ⟨by simp, { sound with }⟩
  | commit => exact ⟨by simp [Step.enter], { sound with }⟩
  | cast => exact ⟨started, { sound with }⟩
  | follow faulty admitted =>
    exact ⟨started, { sound with locked := Proposal.carriesOnly_certificate admitted }⟩
  | blame current phase admitted => exact ⟨started, sound.addBlame current admitted⟩
  | leave => exact ⟨by simp [Step.enter], { sound with }⟩
  | abandon => exact ⟨by simp [Step.enter], { sound with }⟩
  | expire => exact ⟨started, { sound with }⟩
  | accuse => exact ⟨started, sound⟩
  | quit => exact ⟨by simp [Step.enter], { sound with }⟩
  -- a split proposal is sent and leaves nothing behind
  | split faulty done =>
    rw [← proposeSplit_machine done] at started sound
    exact ⟨started, sound⟩

theorem Moves.running (h : p.Moves heard s s') (hs : p.Running heard s) : p.Running heard s' := by
  induction h with
  | refl => exact hs
  | tail _ move ih => exact move.running ih

end Host

end EpochConsensus
