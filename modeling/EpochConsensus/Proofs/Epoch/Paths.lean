import EpochConsensus.Proofs.Epoch.Ballots

/-! # Every call is a path of moves

A message is received in strides: a `Stride` is what a handler does in one piece, so that what an
epoch keeps only as a whole, such as that an equivocating proposer is exposed, holds before and
after it.  A stride is a path of moves (`Stride.moves`).  From a running epoch a message is a path
of strides (`receive_strides`); so every call on a started epoch is a path of moves:
`receive_moves`, `expire_moves` and, once the epoch has begun, `start_moves`.  What moves keep holds
after every such call.
-/
namespace EpochConsensus.Host

variable {σ : Type} (p : Host σ) (heard : Endorsement → Prop) (offered : Proposal → Prop)

/-! ### Strides -/

/-- Looks into the votes, if a signature of the proposer is new. -/
def looked (proposer : ProcessId) (signed : Bool) (s : Step σ) : Step σ :=
  if signed then p.exposeEquivocation proposer s else s

/-- What a handler of messages does in one piece. -/
inductive Stride : Step σ → Step σ → Prop
  /-- A timeout is requested, unless it already is. -/
  | schedule {s : Step σ} {c : Context σ} (timers : Timers) (asked : p.Asks s.toContext c) :
      Stride s { s with toContext := c, machine.timers := timers }
  /-- The store refuses a proposed block. -/
  | refuse {s : Step σ} {proposal : Proposal} {c : Context σ}
      (asked : p.store s.toContext proposal.block = .ok (false, c)) :
      Stride s { s with toContext := c }
  /-- The store takes the block of a new valid proposal. -/
  | enlist {s : Step σ} {proposal : Proposal} {c : Context σ}
      (fresh : s.machine.proposals.contains proposal.block.id = false)
      (valid : p.isValid proposal = .ok true)
      (admitted : (Message.propose proposal).CarriesOnly heard)
      (asked : p.store s.toContext proposal.block = .ok (true, c)) :
      Stride s { s with toContext := c, machine := s.machine.enlist proposal }
  | relay {s : Step σ} {proposal : Proposal}
      (admitted : (Message.propose proposal).CarriesOnly heard) :
      Stride s (s.emit (.forward (.propose { proposal with relay := p.id })))
  /-- One more vote is counted, and looked into if a signature of the proposer is new. -/
  | count {s : Step σ} {v : Vote} {proposer : ProcessId} {signed : Bool}
      (active : s.machine.phase ≠ .commit ∧ s.machine.phase ≠ .finished)
      (current : v.epoch = s.machine.epoch) (turn : p.proposer s.machine.epoch = .ok proposer)
      (admitted : (Message.vote v).CarriesOnly heard)
      (unsigned : signed = false → (s.machine.counted proposer v).signedBy proposer =
        (s.machine.votes.get s.machine.epoch v.height v.blockId).signedBy proposer) :
      Stride s (p.looked proposer signed
        { s with machine.votes := s.machine.votes.put (s.machine.counted proposer v) })
  /-- A majority has voted for one block. -/
  | lock {s : Step σ} {c : Certificate} (phase : s.machine.phase = .ready)
      (counted : c ∈ s.machine.votes.toList) (quorum : c.hasQuorum p.count = true) :
      Stride s (({ s with machine.phase := .locked
                          machine.valid := some c
                          machine.locked := some c : Step σ }.emit
        (.broadcast (.quitEpoch c))).emit (.finish s.machine.epoch (some c) (some c)))
  /-- A majority has voted for one block although the proposer failed. -/
  | pass {s : Step σ} {c : Certificate} (phase : s.machine.phase = .epochChange)
      (counted : c ∈ s.machine.votes.toList) (quorum : c.hasQuorum p.count = true)
      {locked : Option Certificate}
      (lock : locked = if s.machine.policy.isHonest then s.machine.locked else some c) :
      Stride s (({ s with machine.phase := .finished
                          machine.valid := some c
                          machine.locked := locked : Step σ }.emit
        (.broadcast (.quitEpoch c))).emit (.finish s.machine.epoch (some c) locked))
  /-- Every process has voted for one block, and the policy does not wait any longer. -/
  | decide {s : Step σ} {c d : Certificate} {id : BlockId} (phase : s.machine.phase = .locked)
      (locked : s.machine.locked = some c) (names : c.blockId? = some id)
      (fast : s.machine.policy.fastPath = true) (counted : d ∈ s.machine.votes.toList)
      (all : d.count = p.count) : Stride s (decided c id s)
  | commit {s : Step σ} {key : BlockKey} {proposal : Proposal} (phase : s.machine.phase = .commit)
      (decided : s.machine.decision = some key)
      (found : s.machine.proposals.find? key.2 = some proposal)
      (linked : p.extendsChain proposal.block s.world = true) :
      Stride s ((s.enter .finished).emit (.decide s.machine.epoch proposal.block))
  | cast {s : Step σ} {proposal : Proposal}
      (admitted : (Message.propose proposal).CarriesOnly heard)
      (votable : s.machine.policy.isHonest = true → p.Votable proposal s.machine s.world) :
      Stride s (p.cast proposal s)
  /-- A process that votes for everything follows the certificate of a proposal. -/
  | follow {s : Step σ} {proposal : Proposal} (faulty : s.machine.policy.isHonest = false)
      (admitted : (Message.propose proposal).CarriesOnly heard) (offers : offered proposal)
      (valid : p.isValid proposal = .ok true)
      (ranks : Certificate.ranksAtLeast proposal.certificate s.machine.locked = true) :
      Stride s { s with machine.locked := proposal.certificate }
  | silence {s : Step σ} {b : Silence} (admitted : (Message.silence b).CarriesOnly heard) :
      Stride s (p.onSilence b s)

/-- Any number of strides. -/
abbrev Strides : Step σ → Step σ → Prop := Relation.ReflTransGen (p.Stride heard offered)

variable {p heard offered} {s s' : Step σ}

/-- Looking into the votes leaves all but the timers as it is, or it exposes the proposer. -/
theorem looked_eq (proposer : ProcessId) (signed : Bool) (s : Step σ) :
    ∃ phase equivocation timers, (p.looked proposer signed s).machine =
        { s.machine with phase, equivocation, timers } ∧
      (phase = s.machine.phase ∨ phase = s.machine.phase.exposed) := by
  unfold looked
  split
  · rcases p.exposeEquivocation_cases proposer s with ⟨heq, -⟩ | ⟨-, -, c, timers, -, heq⟩
    · exact ⟨_, _, _, by rw [heq], .inl rfl⟩
    · exact ⟨_, _, timers, by rw [heq, Step.forwardAll_machine], .inr rfl⟩
  · exact ⟨_, _, _, rfl, .inl rfl⟩

/-- **A stride of a running epoch is a path of moves.** -/
theorem Stride.moves (h : p.Stride heard offered s s') : p.Moves heard s s' := by
  cases h with
  | schedule timers asked => exact .single (.schedule timers asked)
  | refuse asked => exact .single (.refuse asked)
  | enlist fresh valid admitted asked => exact .single (.enlist fresh valid admitted asked)
  | relay admitted => exact .single (.relay admitted)
  | count active current turn admitted unsigned =>
    exact .head (.count current turn admitted) (ite_moves fun _ => exposeEquivocation_moves turn)
  | lock phase counted quorum => exact .single (.lock phase counted quorum)
  | pass phase counted quorum lock => exact .single (.pass phase counted quorum lock)
  | decide phase locked names fast counted all => exact .single (.decide phase locked names)
  | commit phase decided found linked => exact .single (.commit phase decided found linked)
  | cast admitted votable => exact .single (.cast admitted votable)
  | follow faulty admitted offers valid ranks => exact .single (.follow faulty admitted)
  | silence admitted => exact onSilence_moves admitted s

theorem Stride.running (h : p.Stride heard offered s s') (hs : p.Running heard s) :
    p.Running heard s' :=
  Moves.running h.moves hs

/-- **So are any number of strides.** -/
theorem Strides.moves (h : p.Strides heard offered s s') : p.Moves heard s s' := by
  induction h with
  | refl => exact .refl
  | tail _ stride ih => exact ih.trans stride.moves

theorem Strides.running (h : p.Strides heard offered s s') (hs : p.Running heard s) :
    p.Running heard s' := Moves.running (Strides.moves h) hs

/-! ### Votes -/

theorem tryToCommit_strides (s : Step σ) : p.Strides heard offered s (p.tryToCommit s) := by
  rcases p.tryToCommit_cases s with heq | ⟨key, proposal, phase, decided, found, linked, heq⟩
  · rw [heq]
  · rw [heq]
    exact .single (.commit phase decided found linked)

/-- An epoch that does not wait decides by strides once every process has voted. -/
theorem decideLocked_strides (phase : s.machine.phase = .locked)
    (fast : s.machine.policy.fastPath = true) {c : Certificate}
    (counted : c ∈ s.machine.votes.toList) (all : c.count = p.count) :
    p.Strides heard offered s (p.decideLocked s) := by
  rcases p.decideLocked_cases s with heq | ⟨d, id, locked, names, heq⟩
  · rw [heq]
  · rw [heq]
    exact .head (.decide phase locked names fast counted all) (tryToCommit_strides _)

theorem onBlockCertificate_strides (started : s.machine.phase ≠ .inactive) {c : Certificate}
    (counted : c ∈ s.machine.votes.toList) (quorum : c.hasQuorum p.count = true) :
    p.Strides heard offered s (p.onBlockCertificate c s) := by
  unfold onBlockCertificate
  cases hphase : s.machine.phase with
  | inactive => exact absurd hphase started
  | ready =>
    -- the timeout touches nothing that the lock reads, so it may as well come first
    obtain ⟨d, timers, asked, heq⟩ := p.schedule_eq .equivocation
      { s with machine := { s.machine with valid := some c, phase := .locked, locked := some c } }
    simp only [heq]
    exact .head (.schedule timers asked) (.single (.lock hphase counted quorum))
  | epochChange => exact .single (.pass hphase counted quorum rfl)
  | locked => exact .refl
  | commit => exact .refl
  | finished => exact .refl

theorem ite_strides {c : Prop} [Decidable c] (h : c → p.Strides heard offered s s') :
    p.Strides heard offered s (if c then s' else s) := by
  split
  · exact h ‹c›
  · exact .refl

theorem onVote_strides {v : Vote} (hs : p.Running heard s) (active : s.machine.phase ≠ .finished)
    (admitted : (Message.vote v).CarriesOnly heard) (h : p.onVote v s = .ok s') :
    p.Strides heard offered s s' := by
  rcases onVote_cases h with rfl | ⟨proposer, signed, hcommit, current, turn, unsigned, rfl⟩
  · exact .refl
  let c := s.machine.counted proposer v
  let t := p.looked proposer signed { s with machine.votes := s.machine.votes.put c }
  have hcount : p.Stride heard offered s t :=
    .count ⟨hcommit, active⟩ current turn admitted unsigned
  -- neither looking into the votes nor locking takes the certificate out again
  have hmem : c ∈ t.machine.votes.toList := by
    obtain ⟨phase, equivocation, timers, heq, -⟩ := p.looked_eq proposer signed
      { s with machine.votes := s.machine.votes.put c }
    rw [heq]
    exact s.machine.votes.mem_put_self c
  let u := if c.hasQuorum p.count then p.onBlockCertificate c t else t
  have hmem' : c ∈ u.machine.votes.toList := by
    have hvotes : u.machine.votes = t.machine.votes := by
      show (if _ then _ else _ : Step σ).machine.votes = _
      split
      · exact onBlockCertificate_votes c t
      · rfl
    rwa [hvotes]
  have hstarted : t.machine.phase ≠ .inactive := (hcount.running hs).started
  refine .head hcount (.trans (b := u) (ite_strides fun quorum => ?_) (ite_strides fun last => ?_))
  · exact onBlockCertificate_strides hstarted hmem quorum
  · simp only [Bool.and_eq_true, decide_eq_true_eq] at last
    exact decideLocked_strides last.2 last.1.1 hmem' last.1.2

/-! ### Handlers of proposals -/

theorem voteFor_strides {proposal : Proposal} (hs : p.Running heard s)
    (active : s.machine.phase ≠ .finished)
    (admitted : (Message.propose proposal).CarriesOnly heard)
    (votable : s.machine.policy.isHonest = true → p.Votable proposal s.machine s.world)
    (h : p.voteFor proposal s = .ok s') : p.Strides heard offered s s' := by
  unfold voteFor at h
  simp only [pure, Except.pure] at h
  obtain ⟨t, hvote, h⟩ := bind_eq_ok.mp h
  cases h
  have hquiet : p.Quiet s t := by
    refine .trans ?_ (quiet_onVote hvote)
    exact ⟨rfl, rfl, rfl, rfl, rfl, .refl⟩
  let relayed := s.emit (.forward (.propose { proposal with relay := p.id }))
  have hrelay : p.Stride heard offered s relayed := .relay admitted
  have hcount : p.Strides heard offered relayed t :=
    onVote_strides (hrelay.running hs) active (Proposal.carriesOnly_vote admitted) hvote
  -- counting the proposal as a vote may lock and decide, but it leaves the proposal votable
  refine .head hrelay (hcount.tail (.cast admitted ?_))
  intro honest
  exact hquiet.votable (votable (hquiet.policy ▸ honest))

/-- Nobody votes but a process that has seen one proposal, and that one is worth a vote. -/
theorem tryToVote_cases (h : p.tryToVote s = .ok s') : s' = s ∨ ∃ proposal,
    s.machine.phase = .ready ∧ p.Votable proposal s.machine s.world ∧
      p.voteFor proposal s = .ok s' := by
  unfold tryToVote at h
  simp only [pure, Except.pure] at h
  by_cases hvoted : s.machine.hasVoted = true
  · rw [if_pos hvoted] at h
    exact .inl (Except.ok.inj h).symm
  rw [if_neg hvoted] at h
  obtain ⟨q, turn, h⟩ := bind_eq_ok.mp h
  split at h
  · exact .inl (Except.ok.inj h).symm
  rename_i hother
  simp only [Bool.or_eq_true, decide_eq_true_eq, not_or, Decidable.not_not] at hother
  cases single : s.machine.proposals.single? with
  | none =>
    simp only [single] at h
    exact .inl (Except.ok.inj h).symm
  | some proposal =>
    simp only [single] at h
    split at h
    · rename_i hwilling
      obtain ⟨hranks, hextends⟩ := Bool.and_eq_true_iff.mp hwilling
      exact .inr ⟨proposal, hother.2, ⟨Bool.eq_false_iff.mpr hvoted, ⟨q, turn, hother.1⟩, single,
        hranks, s.world, hextends, .refl⟩, h⟩
    · exact .inl (Except.ok.inj h).symm

theorem tryToVote_strides (hs : p.Running heard s) (h : p.tryToVote s = .ok s') :
    p.Strides heard offered s s' := by
  rcases tryToVote_cases h with rfl | ⟨proposal, phase, votable, h⟩
  · exact .refl
  · have hadmitted : (Message.propose proposal).CarriesOnly heard :=
      (hs.sound.proposals _ (s.machine.proposals.mem_single? votable.single)).2.2
    exact voteFor_strides hs (by simp [phase]) hadmitted (fun _ => votable) h

theorem voteAnyway_strides {proposal : Proposal} (hs : p.Running heard s)
    (active : s.machine.phase ≠ .finished)
    (faulty : s.machine.policy.isHonest = false)
    (admitted : (Message.propose proposal).CarriesOnly heard) (offers : offered proposal)
    (valid : p.isValid proposal = .ok true)
    (h : p.voteAnyway proposal s = .ok s') : p.Strides heard offered s s' := by
  unfold voteAnyway at h
  simp only [pure, Except.pure] at h
  obtain ⟨t, hvote, h⟩ := bind_eq_ok.mp h
  -- only a faulty process follows a certificate, and it is faulty still
  have hpolicy : t.machine.policy = s.machine.policy := by
    unfold voteFor at hvote
    obtain ⟨u, hu, hvote⟩ := bind_eq_ok.mp hvote
    cases hvote
    exact (quiet_onVote hu).policy
  have hstrides : p.Strides heard offered s t :=
    voteFor_strides hs active admitted (fun honest => by simp [faulty] at honest) hvote
  split at h
  · rename_i ranks
    cases h
    exact hstrides.tail (.follow (hpolicy ▸ faulty) admitted offers valid ranks)
  · cases h
    exact hstrides

/-- What a proposal comes to: nothing, or the store refuses its block, or the block is stored, the
proposal goes on the list and the process tries to vote and to commit. -/
theorem onProposal_cases {proposal : Proposal} (h : p.onProposal proposal s = .ok s') :
    s' = s ∨ s.machine.proposals.contains proposal.block.id = false ∧
      p.isValid proposal = .ok true ∧ ∃ added c,
        p.store s.toContext proposal.block = .ok (added, c) ∧
        (added = false ∧ s' = { s with toContext := c } ∨
          added = true ∧ ∃ t, s' = p.tryToCommit t ∧
            (p.tryToVote { s with toContext := c, machine := s.machine.enlist proposal } = .ok t ∨
              s.machine.policy.isHonest = false ∧ p.voteAnyway proposal
                { s with toContext := c, machine := s.machine.enlist proposal } = .ok t)) := by
  unfold onProposal at h
  simp only [pure, Except.pure] at h
  by_cases hknown : s.machine.proposals.contains proposal.block.id = true
  · rw [if_pos hknown] at h
    exact .inl (Except.ok.inj h).symm
  rw [if_neg hknown] at h
  obtain ⟨valid, hvalid, h⟩ := bind_eq_ok.mp h
  cases valid with
  | false => exact .inl (Except.ok.inj h).symm
  | true =>
    rw [if_neg (by decide)] at h
    obtain ⟨⟨added, c⟩, asked, h⟩ := bind_eq_ok.mp h
    refine .inr ⟨Bool.eq_false_iff.mpr hknown, hvalid, added, c, asked, ?_⟩
    cases added with
    | false => exact .inl ⟨rfl, (Except.ok.inj h).symm⟩
    | true =>
      simp only [Bool.not_true, Bool.false_eq_true, if_false] at h
      refine .inr ⟨rfl, ?_⟩
      split at h
      · obtain ⟨t, ht, h⟩ := bind_eq_ok.mp h
        exact ⟨t, (Except.ok.inj h).symm, .inl ht⟩
      · rename_i hfaulty
        obtain ⟨proposals, heq⟩ := enlist_eq s.machine proposal
        obtain ⟨t, ht, h⟩ := bind_eq_ok.mp h
        exact ⟨t, (Except.ok.inj h).symm, .inr ⟨by simpa [heq] using hfaulty, ht⟩⟩

theorem onProposal_strides {proposal : Proposal} (hs : p.Running heard s)
    (active : s.machine.phase ≠ .finished)
    (admitted : (Message.propose proposal).CarriesOnly heard) (offers : offered proposal)
    (h : p.onProposal proposal s = .ok s') : p.Strides heard offered s s' := by
  rcases onProposal_cases h with rfl | ⟨fresh, valid, added, c, asked, ⟨rfl, rfl⟩ |
    ⟨rfl, t, rfl, ht⟩⟩
  · exact .refl
  · exact .single (.refuse asked)
  · have hstride : p.Stride heard offered s
        { s with toContext := c, machine := s.machine.enlist proposal } :=
      .enlist fresh valid admitted asked
    refine .head hstride (.trans ?_ (tryToCommit_strides t))
    rcases ht with ht | ⟨faulty, ht⟩
    · exact tryToVote_strides (hstride.running hs) ht
    · obtain ⟨proposals, heq⟩ := enlist_eq s.machine proposal
      have hactive : (s.machine.enlist proposal).phase ≠ .finished := by rwa [heq]
      have hfaulty : (s.machine.enlist proposal).policy.isHonest = false := by rwa [heq]
      exact voteAnyway_strides (hstride.running hs) hactive hfaulty admitted offers valid ht

/-! ### Messages -/

theorem onBallot_strides {b : Ballot} (hs : p.Running heard s)
    (active : s.machine.phase ≠ .finished)
    (admitted : b.toMessage.CarriesOnly heard) (h : p.onBallot b s = .ok s') :
    p.Strides heard offered s s' := by
  cases b with
  | silence b =>
    cases h
    exact .single (.silence admitted)
  | vote v => exact onVote_strides hs active admitted h

/-- Requesting again what was refused touches nothing but the host and the timers. -/
theorem retryRefused_strides (s : Step σ) :
    p.Strides heard offered s (p.retryRefused s) ∧
      (p.retryRefused s).machine.phase = s.machine.phase := by
  unfold retryRefused
  generalize TimeoutKind.all = kinds
  induction kinds generalizing s with
  | nil => exact ⟨.refl, rfl⟩
  | cons kind kinds ih =>
    rw [List.foldl_cons]
    split
    · obtain ⟨hstrides, hphase⟩ := ih (p.schedule kind s)
      obtain ⟨c, timers, asked, heq⟩ := p.schedule_eq kind s
      rw [heq] at hstrides hphase ⊢
      exact ⟨.head (.schedule timers asked) hstrides, hphase⟩
    · exact ih s

theorem whileActive_strides {handle : Step σ → Except Fault (Step σ)} (hs : p.Running heard s)
    (handled : ∀ t, p.Running heard t → t.machine.phase ≠ .finished → handle t = .ok s' →
      p.Strides heard offered t s')
    (h : p.whileActive handle s = .ok s') : p.Strides heard offered s s' := by
  unfold whileActive at h
  split at h
  · cases h
    exact .refl
  · rename_i hactive
    simp only [Bool.or_eq_true, decide_eq_true_eq, not_or] at hactive
    have hretry : p.Strides heard offered s (p.retryRefused s) ∧
        (p.retryRefused s).machine.phase = s.machine.phase := retryRefused_strides s
    obtain ⟨hretry, hphase⟩ := hretry
    exact hretry.trans (handled _ (Strides.running hretry hs) (hphase ▸ hactive.1) h)

/-- Every ballot of a certificate carries a signature of it. -/
theorem carriesOnly_of_mem_ballots {c : Certificate} (hc : c.CarriesOnly heard) {b : Ballot}
    (hb : b ∈ c.ballots) : b.toMessage.CarriesOnly heard := by
  obtain ⟨⟨signer, signature⟩, hentry, rfl⟩ := List.mem_map.mp hb
  have hsigned : heard ⟨signer, c.statement, signature⟩ :=
    hc _ (List.mem_map.mpr ⟨_, hentry, rfl⟩)
  intro e he
  obtain ⟨⟨epoch, subject⟩, signatures⟩ := c
  cases subject <;>
    · obtain rfl : e = _ := by
        simpa [Certificate.ballot, Ballot.toMessage, Message.endorsements] using he
      exact hsigned

theorem onQuitEpoch_strides {c : Certificate} (hs : p.Running heard s) (hc : c.CarriesOnly heard)
    (h : p.onQuitEpoch c s = .ok s') : p.Strides heard offered s s' := by
  unfold onQuitEpoch at h
  split at h
  · cases h
    exact .refl
  · refine foldlM_keeps (motive := p.Strides heard offered s) ?_ h .refl
    intro t b t' hb ht hround
    exact ht.trans (whileActive_strides (Strides.running ht hs)
      (fun u hu hactive => onBallot_strides hu hactive (carriesOnly_of_mem_ballots hc hb)) hround)

theorem onMessage_strides {m : Message} (hs : p.Running heard s)
    (active : s.machine.phase ≠ .finished) (admitted : m.CarriesOnly heard)
    (offers : m.ProposesOnly offered) (h : p.onMessage m s = .ok s') :
    p.Strides heard offered s s' := by
  cases m with
  | propose proposal => exact onProposal_strides hs active admitted (offers proposal rfl) h
  | silence b =>
    cases h
    exact .single (.silence admitted)
  | vote v => exact onVote_strides hs active admitted h
  | quitEpoch c => exact onQuitEpoch_strides hs admitted h
  | certificate | probe | answer =>
    cases h
    exact .refl

/-- **A started epoch receives a message by a path of strides.** -/
theorem receive_strides {m : Message} (hs : p.Running heard s) (admitted : m.CarriesOnly heard)
    (offers : m.ProposesOnly offered) (h : p.receive m s = .ok s') :
    p.Strides heard offered s s' := by
  unfold receive at h
  rw [if_neg hs.started] at h
  exact whileActive_strides hs (fun t ht hactive => onMessage_strides ht hactive admitted offers) h

/-- **It does so by a path of moves.** -/
theorem receive_moves {m : Message} (hs : p.Running heard s) (admitted : m.CarriesOnly heard)
    (h : p.receive m s = .ok s') : p.Moves heard s s' := by
  have hstrides : p.Strides heard (fun _ => True) s s' :=
    receive_strides hs admitted (fun _ _ => trivial) h
  exact hstrides.moves

/-! ### Timeouts and starts -/

/-- What a started epoch does on a timeout, case by case. -/
theorem onTimeout_cases {kind : TimeoutKind} (h : p.onTimeout kind s = .ok s') :
    s' = s ∨
      (s.machine.phase = .ready ∧ s.machine.hasVoted = false ∧
        s' = s.emit (.broadcast (.silence ⟨s.machine.epoch, p.id, .empty⟩))) ∨
      (kind = .equivocation ∧ s.machine.phase = .locked ∧ s' = p.decideLocked s) ∨
      (s.machine.phase = .epochChange ∧ s' = (s.enter .finished).emit
        (.finish s.machine.epoch s.machine.valid s.machine.locked)) ∨
      (s.machine.policy.splits = true ∧ p.proposeSplit s = .ok s') := by
  cases kind with
  | propose =>
    simp only [onTimeout] at h
    split at h
    · rename_i hdue
      simp only [Bool.and_eq_true, decide_eq_true_eq, Bool.not_eq_true'] at hdue
      cases h
      exact .inr (.inl ⟨hdue.1.1, hdue.1.2, rfl⟩)
    · cases h
      exact .inl rfl
  | equivocation =>
    simp only [onTimeout, Except.ok.injEq] at h
    split at h
    · rename_i phase
      exact .inr (.inr (.inl ⟨rfl, phase, h.symm⟩))
    · exact .inl h.symm
  | quitEpoch =>
    simp only [onTimeout] at h
    split at h
    · rename_i phase
      cases h
      exact .inr (.inr (.inr (.inl ⟨phase, rfl⟩)))
    · cases h
      exact .inl rfl
  | epochChange =>
    simp only [onTimeout, pure, Except.pure] at h
    split at h
    · cases h
      exact .inl rfl
    · rename_i hsplits
      obtain ⟨q, -, h⟩ := bind_eq_ok.mp h
      split at h
      · exact .inr (.inr (.inr (.inr ⟨by simpa using hsplits, h⟩)))
      · cases h
        exact .inl rfl

/-- A timeout does nothing, or the epoch reacts to it once its timer has run out. -/
theorem expire_cases {t : Timeout} (h : p.expire t s = .ok s') :
    s' = s ∨ (s.machine.phase ≠ .inactive ∧ t.epoch = s.machine.epoch ∧
      p.onTimeout t.kind { s with machine.timers := s.machine.timers.expire t.kind } = .ok s') := by
  unfold expire at h
  split at h
  · exact .inl (Except.ok.inj h).symm
  · rename_i hdue
    simp only [Bool.or_eq_true, decide_eq_true_eq, not_or, Decidable.not_not] at hdue
    exact .inr ⟨hdue.1.1.1, hdue.2, h⟩

/-- **A started epoch takes a timeout by a path of moves.** -/
theorem expire_moves {t : Timeout} (h : p.expire t s = .ok s') : p.Moves heard s s' := by
  rcases expire_cases h with rfl | ⟨-, -, h⟩
  · exact .refl
  -- from here on it does not matter that the timer has just run out
  refine .head (.expire t.kind) ?_
  generalize { s with machine.timers := s.machine.timers.expire t.kind : Step σ } = u at h ⊢
  rcases onTimeout_cases h with
    rfl | ⟨phase, fresh, rfl⟩ | ⟨-, phase, rfl⟩ | ⟨phase, rfl⟩ | ⟨splits, done⟩
  · exact .refl
  · exact .single (.accuse phase fresh)
  · rcases p.decideLocked_cases u with heq | ⟨d, id, locked, names, heq⟩
    · rw [heq]
    · rw [heq]
      have hcommit : p.Strides heard (fun _ => True) (decided d id u) _ := tryToCommit_strides _
      exact .head (.decide phase locked names) hcommit.moves
  · exact .single (.quit phase)
  · exact .single (.split splits done)

/-- A proposal changes nothing in the epoch. -/
theorem propose_machine (done : p.propose s = .ok s') : s'.machine = s.machine := by
  unfold propose at done
  simp only [pure, Except.pure] at done
  split at done
  · cases done
    rfl
  · obtain ⟨b, -, done⟩ := bind_eq_ok.mp done
    cases done
    rfl

/-- Beginning changes nothing in the epoch but the timers. -/
theorem begin_machine (h : p.begin s = .ok s') :
    ∃ timers, s'.machine = { s.machine with timers := timers } := by
  have hschedule : ∀ kind, ∃ timers,
      (p.schedule kind s).machine = { s.machine with timers := timers } := by
    intro kind
    obtain ⟨c, timers, -, heq⟩ := p.schedule_eq kind s
    exact ⟨timers, by rw [heq]⟩
  unfold begin at h
  simp only [pure, Except.pure] at h
  obtain ⟨q, -, h⟩ := bind_eq_ok.mp h
  split at h
  · unfold lead at h
    simp only [pure, Except.pure] at h
    split at h
    · exact ⟨_, propose_machine h⟩
    · obtain ⟨follows, -, h⟩ := bind_eq_ok.mp h
      split at h
      · exact ⟨_, proposeSplit_machine h⟩
      · cases h
        exact hschedule _
  · cases h
    exact hschedule _

/-- A first start opens the epoch, begins it, and takes the messages that waited. -/
theorem start_cases {valid locked : Option Certificate} (inactive : s.machine.phase = .inactive)
    (h : p.start valid locked s = .ok s') :
    (s.machine.policy.isSilent = true ∧
      s' = { s with machine := { s.machine.opened valid locked with pending := [] } }) ∨
    ∃ b, p.begin { s with machine := s.machine.opened valid locked } = .ok b ∧
      s.machine.pending.foldlM (fun s m => p.receive m s) { b with machine.pending := [] } =
        .ok s' := by
  unfold start at h
  simp only [pure, Except.pure] at h
  rw [if_neg (by simp [Machine.started, inactive])] at h
  split at h
  · rename_i silent
    exact .inl ⟨silent, (Except.ok.inj h).symm⟩
  · obtain ⟨b, hb, h⟩ := bind_eq_ok.mp h
    exact .inr ⟨b, hb, h⟩

theorem Sound.opened {m : Machine} (hs : p.Sound heard m) {valid locked : Option Certificate}
    (hvalid : ∀ c ∈ valid, c.CarriesOnly heard) (hlocked : ∀ c ∈ locked, c.CarriesOnly heard) :
    p.Sound heard (m.opened valid locked) :=
  { hs with valid := hvalid, locked := hlocked }

/-- Once it has begun, an epoch is running. -/
theorem Sound.begun {m : Machine} (hs : p.Sound heard m) {valid locked : Option Certificate}
    (hvalid : ∀ c ∈ valid, c.CarriesOnly heard) (hlocked : ∀ c ∈ locked, c.CarriesOnly heard)
    {c : Context σ} {b : Step σ} (hb : p.begin ⟨c, m.opened valid locked⟩ = .ok b) :
    p.Running heard { b with machine.pending := [] } := by
  obtain ⟨timers, heq⟩ := begin_machine hb
  have hopened := hs.opened hvalid hlocked
  rw [heq]
  exact ⟨by simp [Machine.opened], { hopened with pending := by simp }⟩

/-- **Once it has begun, an epoch starts by a path of strides.** -/
theorem start_strides {pending : List Message} {b : Step σ} (hrunning : p.Running heard b)
    (hpending : ∀ m ∈ pending, m.CarriesOnly heard)
    (offers : ∀ m ∈ pending, m.ProposesOnly offered)
    (h : pending.foldlM (fun s m => p.receive m s) b = .ok s') : p.Strides heard offered b s' := by
  -- by induction on the messages that waited: after each the epoch is running still
  refine foldlM_keeps ?_ h .refl
  intro t m t' hm ht hround
  exact Relation.ReflTransGen.trans ht
    (receive_strides (Strides.running ht hrunning) (hpending m hm) (offers m hm) hround)

/-- **It does so by a path of moves.** -/
theorem start_moves {pending : List Message} {b : Step σ} (hrunning : p.Running heard b)
    (hpending : ∀ m ∈ pending, m.CarriesOnly heard)
    (h : pending.foldlM (fun s m => p.receive m s) b = .ok s') : p.Moves heard b s' := by
  have hstrides : p.Strides heard (fun _ => True) b s' :=
    start_strides hrunning hpending (fun _ _ _ _ => trivial) h
  exact hstrides.moves

end EpochConsensus.Host
