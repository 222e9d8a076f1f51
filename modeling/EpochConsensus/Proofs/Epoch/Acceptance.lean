import EpochConsensus.Proofs.Epoch.Bookings
import EpochConsensus.Proofs.Epoch.Justification

/-! # The first proposal of an epoch

An honest epoch that waits for the proposal of another process votes for the first valid one if that
respects the lock and its block is new to the store, and linked there (`Host.Expects.receive`).  The
store is shared by all epochs and takes a block once.  A block that an earlier epoch has brought is
refused, and then nothing comes of the proposal (`Host.receive_refused`).
-/
namespace EpochConsensus.Host

variable {σ : Type} {p : Host σ} {s s' v : Step σ} {m : Machine} {proposal : Proposal} {w : σ}

/-- An epoch that waits for its first proposal, which is up to another process. -/
structure Expects (p : Host σ) (m : Machine) : Prop where
  phase : m.phase = .ready
  turn : p.proposer m.epoch ≠ .ok p.id
  fresh : m.hasVoted = false
  unproposed : m.proposals = .empty

/-- What an epoch that was `m` has come to once it has voted for its first proposal. -/
structure Accepted (p : Host σ) (proposal : Proposal) (m : Machine) (s : Step σ) : Prop where
  epoch : s.machine.epoch = m.epoch
  recorded : s.machine.proposals.toList = [proposal]
  voted : s.machine.hasVoted = true
  vote : Effect.broadcast (.vote (p.ownVote m.epoch proposal)) ∈ s.effects
  /-- The epoch goes on unless the proposal is the last vote of a majority. -/
  opened : (m.counted proposal.sender proposal.vote).hasQuorum p.count = false → s.machine.IsOpen

/-! ### Asking again -/

theorem effects_of_asks {c c' : Context σ} (asked : p.Asks c c') :
    ∃ xs, c'.effects.toList = c.effects.toList ++ xs ∧ ∀ e ∈ xs, e.isRequest = true := by
  rcases asked with rfl | ⟨t, rfl⟩
  · exact ⟨[], by simp, by simp⟩
  · exact ⟨[.request t (p.accepts t c.world).1],
      by simp [request, Context.emit, Context.record, Context.effects], by simp [Effect.isRequest]⟩

/-- Requesting again what was refused changes the timers, and nothing comes of it but requests. -/
theorem retryRefused_eq (p : Host σ) (s : Step σ) : ∃ c timers xs,
    p.retryRefused s = { s with toContext := c, machine.timers := timers } ∧
      p.Requested s.world c.world ∧ c.effects.toList = s.effects.toList ++ xs ∧
      ∀ e ∈ xs, e.isRequest = true := by
  unfold retryRefused
  generalize TimeoutKind.all = kinds
  induction kinds generalizing s with
  | nil => exact ⟨s.toContext, s.machine.timers, [], rfl, .refl, by simp, by simp⟩
  | cons kind kinds ih =>
    rw [List.foldl_cons]
    split
    · obtain ⟨c, timers, asked, heq⟩ := p.schedule_eq kind s
      obtain ⟨c', timers', xs, heq', hworld, heffects, hrequests⟩ := ih (p.schedule kind s)
      rw [heq] at heq' hworld heffects
      obtain ⟨ys, hys, hfirst⟩ := effects_of_asks asked
      refine ⟨c', timers', ys ++ xs, by rw [heq, heq'],
        (requested_of_asks asked).trans hworld, ?_,
        List.forall_mem_append.mpr ⟨hfirst, hrequests⟩⟩
      rw [heffects, hys, List.append_assoc]
    · exact ih s

/-! ### A refused block -/

/-- **Nothing comes of a proposal whose block the store refuses**: it is not recorded, and nothing
is sent. -/
theorem receive_refused (active : m.phase ≠ .inactive ∧ m.phase ≠ .finished)
    (loud : m.policy.isSilent = false) (unknown : m.proposals.contains proposal.block.id = false)
    (valid : p.isValid proposal = .ok true)
    (refuses : ∀ w', p.Requested w w' → p.addBlock proposal.block w' = .ok (false, w')) :
    ∃ c timers, p.receive (.propose proposal) ⟨.start w, m⟩ = .ok ⟨c, { m with timers }⟩ ∧
      p.Requested w c.world ∧
      ∀ e ∈ c.effects.toList, e.isRequest = true ∨ e = .addBlock proposal.block.id false := by
  obtain ⟨c, timers, xs, heq, hworld, heffects, hrequests⟩ := p.retryRefused_eq ⟨.start w, m⟩
  refine ⟨c.emit (.addBlock proposal.block.id false), timers, ?_, hworld, ?_⟩
  · rw [receive_of_active active.1 active.2 loud, heq]
    simp only [onMessage, onProposal, unknown, valid, store, refuses _ hworld, bind, Except.bind,
      pure, Except.pure, Bool.false_eq_true, if_false, Bool.not_true, Bool.not_false, if_true]
  · intro e he
    have hsplit : e ∈ c.effects.toList ∨ e = .addBlock proposal.block.id false := by
      simpa [Context.effects, Context.emit, Context.record] using he
    refine hsplit.imp_left fun hold => hrequests e ?_
    rw [heffects] at hold
    simpa [Context.effects, Context.start] using hold

/-! ### A vote -/

/-- A process votes for the only proposal on record if that respects the lock and is linked. -/
theorem tryToVote_of_single {q : ProcessId} (ready : s.machine.phase = .ready)
    (fresh : s.machine.hasVoted = false) (turn : p.proposer s.machine.epoch = .ok q)
    (other : q ≠ p.id) (single : s.machine.proposals.single? = some proposal)
    (ranks : Certificate.ranksAtLeast proposal.certificate s.machine.initialLocked = true)
    (extends_ : p.extendsChain proposal.block s.world = true) :
    p.tryToVote s = p.voteFor proposal s := by
  unfold tryToVote
  simp only [fresh, turn, ready, single, ranks, extends_, bind, Except.bind]
  simp [other]

/-- A valid proposal of a block that is new to the store is put on record before the process
votes. -/
theorem onProposal_of_stored {c : Context σ}
    (unknown : s.machine.proposals.contains proposal.block.id = false)
    (valid : p.isValid proposal = .ok true)
    (stored : p.store s.toContext proposal.block = .ok (true, c))
    (honest : (s.machine.enlist proposal).policy.isHonest = true)
    (tried : p.tryToVote { s with toContext := c, machine := s.machine.enlist proposal } = .ok s') :
    p.onProposal proposal s = .ok (p.tryToCommit s') := by
  unfold onProposal
  simp only [unknown, valid, stored, honest, tried, bind, Except.bind, pure, Except.pure,
    Bool.false_eq_true, if_false, Bool.not_true, if_true]

/-- A vote that does not complete a majority leaves an epoch open. -/
theorem onVote_isOpen {q : ProcessId} {x : Vote} (turn : p.proposer s.machine.epoch = .ok q)
    (opened : s.machine.IsOpen) (short : (s.machine.counted q x).hasQuorum p.count = false)
    (h : p.onVote x s = .ok s') : s'.machine.IsOpen := by
  rcases onVote_cases h with rfl | ⟨proposer, signed, -, -, turn', -, rfl⟩
  · exact opened
  · rw [turn] at turn'
    cases turn'
    exact (onCounted_isOpen _ _ _ _).mpr ⟨opened, short⟩

/-- Trying to commit keeps what has been done. -/
theorem mem_effects_tryToCommit {e : Effect} (h : e ∈ s.effects) :
    e ∈ (p.tryToCommit s).effects := by
  rcases p.tryToCommit_cases s with heq | ⟨key, proposal, -, -, -, -, heq⟩
  · rwa [heq]
  · rw [heq]
    simp only [Context.effects, Step.emit_moments, Array.map_push]
    exact Array.mem_push_of_mem _ h

/-- The process has voted once the proposal has been counted as its proposer's vote. -/
theorem accepted_cast (counted : p.onVote proposal.vote s = .ok v)
    (turn : p.proposer m.epoch = .ok proposal.sender) (ready : s.machine.phase = .ready)
    (epoch : s.machine.epoch = m.epoch) (votes : s.machine.votes = m.votes)
    (recorded : s.machine.proposals.toList = [proposal]) :
    p.Accepted proposal m (p.tryToCommit (p.cast proposal v)) := by
  have hquiet := quiet_onVote counted
  have hcommit := quiet_tryToCommit (p := p) (p.cast proposal v)
  have hepoch : v.machine.epoch = m.epoch := hquiet.epoch.trans epoch
  refine ⟨hcommit.epoch.trans hepoch, ?_, hcommit.hasVoted, ?_, fun short => ?_⟩
  · rw [hcommit.proposals]
    show v.machine.proposals.toList = _
    rw [hquiet.proposals, recorded]
  · refine mem_effects_tryToCommit ?_
    simp [cast, hepoch, Context.effects]
  · have hshort : (s.machine.counted proposal.sender proposal.vote).hasQuorum p.count = false := by
      unfold Machine.counted
      rwa [epoch, votes]
    have hopen : v.machine.IsOpen := onVote_isOpen (epoch ▸ turn) (.inl ready) hshort counted
    rcases p.tryToCommit_cases (p.cast proposal v) with heq | ⟨key, found, hphase, -⟩
    · rw [heq]
      exact hopen
    · rcases hopen with hp | hp <;>
        · rw [show v.machine.phase = .commit from hphase] at hp
          cases hp

/-- **A process votes** for the first proposal if that is valid and respects the lock, and if its
block is new to the store and linked there. -/
theorem Expects.receive (h : p.Expects m) (honest : m.policy.isHonest = true)
    (current : proposal.epoch = m.epoch) (valid : p.isValid proposal = .ok true)
    (ranks : Certificate.ranksAtLeast proposal.certificate m.initialLocked = true)
    (admits : ∀ w', p.Requested w w' → ∃ w'', p.addBlock proposal.block w' = .ok (true, w'') ∧
      p.extendsChain proposal.block w'' = true) :
    ∃ s, p.receive (.propose proposal) ⟨.start w, m⟩ = .ok s ∧ p.Accepted proposal m s := by
  obtain ⟨c, timers, -, heq, hworld, -, -⟩ := p.retryRefused_eq ⟨.start w, m⟩
  obtain ⟨w', hadd, hextends⟩ := admits _ hworld
  have hturn : p.proposer m.epoch = .ok proposal.sender := current ▸ (isValid_eq_true valid).1
  have hother : proposal.sender ≠ p.id := fun hsame => h.turn (hsame ▸ hturn)
  -- the epoch once the block is stored and the proposal is on record
  let listed : Step σ :=
    ⟨{ c with world := w' }.emit (.addBlock proposal.block.id true),
      ({ m with timers } : Machine).enlist proposal⟩
  have hlisted : listed.machine = { m with timers, proposals := ⟨[proposal]⟩ } := by
    simp [listed, Machine.enlist, current, Proposals.add, Proposals.contains, Proposals.find?,
      h.unproposed, Proposals.empty]
  have hepoch : listed.machine.epoch = m.epoch := by rw [hlisted]
  have hready : listed.machine.phase = .ready := by rw [hlisted, h.phase]
  obtain ⟨v, counted⟩ : ∃ v, p.onVote proposal.vote
      (listed.emit (.forward (.propose { proposal with relay := p.id }))) = .ok v :=
    exists_onVote (hepoch ▸ hturn) _
  have htried : p.tryToVote listed = .ok (p.cast proposal v) := by
    rw [tryToVote_of_single hready (by rw [hlisted, h.fresh]) (hepoch ▸ hturn) hother
      (by rw [hlisted]; rfl) (by rw [hlisted, ranks]) hextends]
    unfold voteFor
    exact bind_eq_ok.mpr ⟨v, counted, rfl⟩
  refine ⟨p.tryToCommit (p.cast proposal v), ?_, ?_⟩
  · rw [receive_of_active (by simp [h.phase]) (by simp [h.phase]) (Policy.isSilent_eq_false honest),
      heq]
    refine onProposal_of_stored ?_ valid ?_ ?_ htried
    · rw [h.unproposed]
      rfl
    · unfold store
      exact bind_eq_ok.mpr ⟨_, hadd, rfl⟩
    · show listed.machine.policy.isHonest = true
      rw [hlisted, honest]
  · exact accepted_cast counted hturn hready hepoch (by rw [Step.emit_machine, hlisted])
      (by rw [Step.emit_machine, hlisted])

end EpochConsensus.Host
