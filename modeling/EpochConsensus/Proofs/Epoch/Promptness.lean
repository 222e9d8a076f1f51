import EpochConsensus.Proofs.Epoch.Calls

/-! # Decisions that are ready

A decided epoch is `Ripe` when nothing is missing any more to hand its block on: it has recorded the
proposal of the block, and the block is linked.  No call leaves an epoch ripe that was not before
(`prompt_receive`, `prompt_expire`, `not_ripe_start`), because every handler that may complete a
decision ends with an attempt to hand it on.  So an epoch ripens only when the store changes without
it; and what calls on other epochs make of the store shows on record (`Shown`).
-/
namespace EpochConsensus.Host

variable {σ : Type} (p : Host σ)

/-- A host whose answers leave alone what is linked, unless it takes a block. -/
structure Steady : Prop where
  accepts : ∀ t b w, p.extendsChain b (p.accepts t w).2 = p.extendsChain b w
  nextValue : ∀ b w, p.extendsChain b (p.nextValue w).2 = p.extendsChain b w
  refused : ∀ {x w w'}, p.addBlock x w = .ok (false, w') →
    ∀ b, p.extendsChain b w' = p.extendsChain b w

/-- The epoch has decided, and its block can be handed on. -/
structure Ripe (m : Machine) (w : σ) : Prop where
  phase : m.phase = .commit
  linked : ∃ key ∈ m.decision, ∃ proposal ∈ m.proposals.find? key.2,
    p.extendsChain proposal.block w = true

instance (m : Machine) (w : σ) : Decidable (p.Ripe m w) :=
  decidable_of_iff (m.phase = .commit ∧ ∃ key ∈ m.decision, ∃ proposal ∈ m.proposals.find? key.2,
    p.extendsChain proposal.block w = true) ⟨fun h => ⟨h.1, h.2⟩, fun h => ⟨h.phase, h.linked⟩⟩

/-- What leaves the epoch ripe only if it was ripe before. -/
def Prompt (s s' : Step σ) : Prop := p.Ripe s'.machine s'.world → p.Ripe s.machine s.world

variable {p} {s s' t : Step σ}

/-! ### Answers of the host -/

theorem Asks.extendsChain (steady : p.Steady) {c c' : Context σ} (h : p.Asks c c') (b : Block) :
    p.extendsChain b c'.world = p.extendsChain b c.world := by
  rcases h with rfl | ⟨timeout, rfl⟩
  · rfl
  · exact steady.accepts timeout b c.world

theorem store_eq {c c' : Context σ} {b : Block} {added : Bool} (h : p.store c b = .ok (added, c')) :
    p.addBlock b c.world = .ok (added, c'.world) ∧
      c'.moments = c.moments.push ⟨.addBlock b.id added, c'.world, none⟩ := by
  unfold store at h
  simp only [pure, Except.pure] at h
  obtain ⟨⟨answer, world⟩, hadd, h⟩ := bind_eq_ok.mp h
  cases h
  exact ⟨hadd, rfl⟩

/-! ### Handlers -/

namespace Prompt

theorem refl (s : Step σ) : p.Prompt s s := fun h => h

theorem trans (h : p.Prompt s s') (h' : p.Prompt s' t) : p.Prompt s t := fun ripe => h (h' ripe)

theorem of_phase (phase : s'.machine.phase ≠ .commit) : p.Prompt s s' :=
  fun ripe => absurd ripe.phase phase

/-- What touches neither the decision nor what is linked. -/
theorem of_same (phase : s'.machine.phase = s.machine.phase)
    (decision : s'.machine.decision = s.machine.decision)
    (proposals : s'.machine.proposals = s.machine.proposals)
    (linked : ∀ b, p.extendsChain b s'.world = p.extendsChain b s.world) : p.Prompt s s' := by
  rintro ⟨hphase, key, hdecision, proposal, hfound, hlinked⟩
  exact ⟨phase ▸ hphase, key, decision ▸ hdecision, proposal, proposals ▸ hfound,
    linked _ ▸ hlinked⟩

end Prompt

theorem prompt_schedule (steady : p.Steady) (kind : TimeoutKind) (s : Step σ) :
    p.Prompt s (p.schedule kind s) := by
  obtain ⟨c, timers, asked, heq⟩ := p.schedule_eq kind s
  rw [heq]
  exact .of_same rfl rfl rfl (asked.extendsChain steady)

/-- After an attempt to hand a decision on nothing is ripe. -/
theorem not_ripe_tryToCommit (s : Step σ) :
    ¬ p.Ripe (p.tryToCommit s).machine (p.tryToCommit s).world := by
  rcases p.tryToCommit_cases s with heq | ⟨key, proposal, -, -, -, -, heq⟩
  · rw [heq]
    rintro ⟨hphase, key, hdecision, proposal, hfound, hlinked⟩
    -- a ripe decision would have been handed on
    have hchanged : (p.tryToCommit s).machine.phase = .finished := by
      unfold tryToCommit
      simp only [hphase, Option.mem_def.mp hdecision, Option.bind_some, Option.mem_def.mp hfound,
        hlinked, if_true]
      rfl
    rw [heq, hphase] at hchanged
    cases hchanged
  · rw [heq]
    rintro ⟨hphase, -⟩
    cases hphase

theorem prompt_tryToCommit (s : Step σ) : p.Prompt s (p.tryToCommit t) :=
  fun ripe => absurd ripe (not_ripe_tryToCommit t)

/-- A decision on the lock is handed on at once if it can be. -/
theorem prompt_decideLocked (s : Step σ) : p.Prompt s (p.decideLocked s) := by
  rcases p.decideLocked_cases s with heq | ⟨c, id, -, -, heq⟩
  · rw [heq]
    exact .refl s
  · rw [heq]
    exact prompt_tryToCommit s

/-! ### Votes and blame -/

theorem onBlockCertificate_phase (c : Certificate) (active : s.machine.phase ≠ .commit) :
    (p.onBlockCertificate c s).machine.phase ≠ .commit := by
  unfold onBlockCertificate
  cases hphase : s.machine.phase with
  | ready =>
    obtain ⟨d, timers, -, heq⟩ := p.schedule_eq .equivocation
      { s with machine := { s.machine with valid := some c, phase := .locked, locked := some c } }
    simp [heq]
  | commit => exact absurd hphase active
  | inactive | locked | epochChange | finished => simp [hphase]

theorem looked_phase (proposer : ProcessId) (signed : Bool) (active : s.machine.phase ≠ .commit) :
    (p.looked proposer signed s).machine.phase ≠ .commit := by
  obtain ⟨phase, equivocation, timers, heq, hphase⟩ := p.looked_eq proposer signed s
  rw [heq]
  rcases hphase with rfl | rfl
  · exact active
  · show s.machine.phase.exposed ≠ .commit
    cases hphase : s.machine.phase <;> simp [Phase.exposed, hphase] at active ⊢

/-- Acting on votes may decide, but leaves nothing ripe. -/
theorem prompt_onCounted (proposer : ProcessId) (signed : Bool) (c : Certificate)
    (active : s.machine.phase ≠ .commit) : p.Prompt t (p.onCounted proposer signed c s) := by
  let u := p.looked proposer signed { s with machine.votes := s.machine.votes.put c }
  have hu : u.machine.phase ≠ .commit :=
    looked_phase (s := { s with machine.votes := s.machine.votes.put c }) proposer signed active
  let v := if c.hasQuorum p.count then p.onBlockCertificate c u else u
  have hv : v.machine.phase ≠ .commit := by
    by_cases hquorum : c.hasQuorum p.count = true
    · have heq : v = p.onBlockCertificate c u := if_pos hquorum
      rw [heq]
      exact onBlockCertificate_phase c hu
    · have heq : v = u := if_neg hquorum
      rwa [heq]
  show p.Prompt t (if v.machine.policy.fastPath && c.count = p.count && v.machine.phase = .locked
    then p.decideLocked v else v)
  split
  · exact .trans (.of_phase hv) (prompt_decideLocked v)
  · exact .of_phase hv

theorem prompt_onVote {v : Vote} (h : p.onVote v s = .ok s') : p.Prompt s s' := by
  rcases onVote_cases h with rfl | ⟨proposer, signed, hcommit, -, -, -, rfl⟩
  · exact .refl _
  · exact prompt_onCounted proposer signed _ hcommit

theorem prompt_onSilence (b : Silence) (s : Step σ) : p.Prompt s (p.onSilence b s) := by
  rcases p.onSilence_cases b s with heq | ⟨-, hphase, heq⟩
  · rw [heq]
    exact .refl s
  · rw [heq]
    refine .of_phase ?_
    split
    · rcases hphase with hphase | hphase
      · rw [onSilenceCertificate_ready (s := blamed b s) hphase]
        obtain ⟨c, timers, -, heq⟩ := p.schedule_eq .quitEpoch (((blamed b s).enter
          .epochChange).emit (.broadcast (.quitEpoch (blamed b s).machine.blame)))
        rw [heq]
        simp [Step.enter]
      · rw [onSilenceCertificate_locked (s := blamed b s) hphase]
        simp [Step.enter]
    · show s.machine.phase ≠ .commit
      rcases hphase with hphase | hphase <;> simp [hphase]

/-! ### Messages -/

/-- Every new block may be what a decision has waited for. -/
theorem prompt_onProposal (steady : p.Steady) {proposal : Proposal}
    (h : p.onProposal proposal s = .ok s') : p.Prompt s s' := by
  unfold onProposal at h
  simp only [pure, Except.pure] at h
  split at h
  · cases h
    exact .refl _
  obtain ⟨valid, -, h⟩ := bind_eq_ok.mp h
  split at h
  · cases h
    exact .refl _
  obtain ⟨⟨added, c⟩, asked, h⟩ := bind_eq_ok.mp h
  cases added with
  | false =>
    simp only [Bool.not_false, if_true] at h
    cases h
    exact .of_same rfl rfl rfl (steady.refused (store_eq asked).1)
  | true =>
    simp only [Bool.not_true, Bool.false_eq_true, if_false] at h
    -- whatever the vote did, the last thing is an attempt to hand the decision on
    split at h <;>
      · obtain ⟨u, -, h⟩ := bind_eq_ok.mp h
        cases h
        exact prompt_tryToCommit s

theorem prompt_onBallot {b : Ballot} (h : p.onBallot b s = .ok s') : p.Prompt s s' := by
  cases b with
  | silence b =>
    cases h
    exact prompt_onSilence b s
  | vote v => exact prompt_onVote h

theorem prompt_retryRefused (steady : p.Steady) (s : Step σ) : p.Prompt s (p.retryRefused s) := by
  unfold retryRefused
  generalize TimeoutKind.all = kinds
  induction kinds generalizing s with
  | nil => exact .refl s
  | cons kind kinds ih =>
    rw [List.foldl_cons]
    split
    · exact (prompt_schedule steady kind s).trans (ih _)
    · exact ih s

theorem prompt_whileActive (steady : p.Steady) {handle : Step σ → Except Fault (Step σ)}
    (handled : ∀ t, handle t = .ok s' → p.Prompt t s') (h : p.whileActive handle s = .ok s') :
    p.Prompt s s' := by
  unfold whileActive at h
  split at h
  · cases h
    exact .refl _
  · exact (prompt_retryRefused steady s).trans (handled _ h)

theorem prompt_onMessage (steady : p.Steady) {m : Message} (h : p.onMessage m s = .ok s') :
    p.Prompt s s' := by
  cases m with
  | propose proposal => exact prompt_onProposal steady h
  | silence b =>
    cases h
    exact prompt_onSilence b s
  | vote v => exact prompt_onVote h
  | quitEpoch c =>
    replace h : p.onQuitEpoch c s = .ok s' := h
    unfold onQuitEpoch at h
    split at h
    · cases h
      exact .refl _
    · refine foldlM_keeps (motive := p.Prompt s) ?_ h (.refl s)
      intro t b t' _ ht hround
      exact ht.trans (prompt_whileActive steady (fun _ => prompt_onBallot) hround)
  | certificate | probe | answer =>
    cases h
    exact .refl _

/-! ### Calls -/

/-- **No message leaves an epoch ripe that was not before.** -/
theorem prompt_receive (steady : p.Steady) {m : Message} (h : p.receive m s = .ok s') :
    p.Prompt s s' := by
  by_cases hphase : s.machine.phase = .inactive
  · obtain rfl := receive_inactive hphase h
    obtain ⟨pending, heq, -⟩ := keep_eq m s
    rw [heq]
    exact .of_same rfl rfl rfl fun _ => rfl
  · unfold receive at h
    rw [if_neg hphase] at h
    exact prompt_whileActive steady (fun _ => prompt_onMessage steady) h

theorem linked_proposeSplit (steady : p.Steady) (h : p.proposeSplit s = .ok s') (b : Block) :
    p.extendsChain b s'.world = p.extendsChain b s.world := by
  unfold proposeSplit at h
  simp only [pure, Except.pure] at h
  have hasked : p.extendsChain b (p.takeValue (p.takeValue s.toContext).2).2.world =
      p.extendsChain b s.world := (steady.nextValue b _).trans (steady.nextValue b _)
  split at h
  · simp only [bind_eq_ok] at h
    obtain ⟨_, -, _, -, h⟩ := h
    cases h
    exact hasked
  · cases h
    exact hasked

theorem prompt_proposeSplit (steady : p.Steady) (h : p.proposeSplit s = .ok s') :
    p.Prompt s s' := by
  have hmachine := proposeSplit_machine h
  exact .of_same (by rw [hmachine]) (by rw [hmachine]) (by rw [hmachine])
    (linked_proposeSplit steady h)

theorem linked_decideLocked (s : Step σ) : (p.decideLocked s).world = s.world := by
  have hcommit : ∀ t : Step σ, (p.tryToCommit t).world = t.world := by
    intro t
    rcases p.tryToCommit_cases t with heq | ⟨_, _, -, -, -, -, heq⟩ <;> rw [heq]
    rfl
  rcases p.decideLocked_cases s with heq | ⟨c, id, -, -, heq⟩
  · rw [heq]
  · rw [heq, hcommit]
    rfl

/-- A timeout leaves everything as linked as it is. -/
theorem linked_expire (steady : p.Steady) {t : Timeout} (h : p.expire t s = .ok s') (b : Block) :
    p.extendsChain b s'.world = p.extendsChain b s.world := by
  rcases expire_cases h with rfl | ⟨-, -, h⟩
  · rfl
  rcases onTimeout_cases h with rfl | ⟨-, -, rfl⟩ | ⟨-, -, rfl⟩ | ⟨-, rfl⟩ | ⟨-, done⟩
  · rfl
  · rfl
  · rw [linked_decideLocked]
  · rfl
  · exact linked_proposeSplit steady done b

/-- **No timeout does.** -/
theorem prompt_expire (steady : p.Steady) {t : Timeout} (h : p.expire t s = .ok s') :
    p.Prompt s s' := by
  rcases expire_cases h with rfl | ⟨-, -, h⟩
  · exact .refl _
  have hclock : p.Prompt s { s with machine.timers := s.machine.timers.expire t.kind } :=
    .of_same rfl rfl rfl fun _ => rfl
  refine hclock.trans ?_
  rcases onTimeout_cases h with rfl | ⟨-, -, rfl⟩ | ⟨-, -, rfl⟩ | ⟨-, rfl⟩ | ⟨-, done⟩
  · exact .refl _
  · exact .of_same rfl rfl rfl fun _ => rfl
  · exact prompt_decideLocked _
  · exact .of_phase (by simp [Step.enter])
  · exact prompt_proposeSplit steady done

/-- **No start leaves an epoch ripe.** -/
theorem not_ripe_start (steady : p.Steady) (inactive : s.machine.phase = .inactive)
    {valid locked : Option Certificate} (h : p.start valid locked s = .ok s') :
    ¬ p.Ripe s'.machine s'.world := by
  rcases start_cases inactive h with ⟨-, rfl⟩ | ⟨b, hb, hrest⟩
  · rintro ⟨hphase, -⟩
    cases hphase
  · obtain ⟨timers, heq⟩ := begin_machine hb
    have hprompt : p.Prompt { b with machine.pending := [] } s' := by
      refine foldlM_keeps (motive := p.Prompt { b with machine.pending := [] }) ?_ hrest (.refl _)
      exact fun t m t' _ ht hround => ht.trans (prompt_receive steady hround)
    intro ripe
    have hphase := (hprompt ripe).phase
    rw [heq] at hphase
    cases hphase

/-! ### What a call shows of the store -/

/-- A block was added to the store. -/
def Adds (c : Context σ) : Prop := ∃ x ∈ c.moments, ∃ id, x.effect = .addBlock id true

variable (p) in
/-- Since the host was in state `w` a block was added, or everything is as linked as it was. -/
def Shown (w : σ) (c : Context σ) : Prop :=
  Adds c ∨ ∀ b, p.extendsChain b c.world = p.extendsChain b w

variable {w : σ} {heard : Endorsement → Prop}

theorem Shown.start : p.Shown w (.start w) := .inr fun _ => rfl

/-- What stays on record shows still. -/
theorem Shown.extend {c c' : Context σ} (h : p.Shown w c)
    (moments : ∀ x ∈ c.moments, x ∈ c'.moments)
    (linked : ∀ b, p.extendsChain b c'.world = p.extendsChain b c.world) : p.Shown w c' := by
  rcases h with ⟨x, hx, hadds⟩ | hsame
  · exact .inl ⟨x, moments x hx, hadds⟩
  · exact .inr fun b => (linked b).trans (hsame b)

theorem Shown.asks (steady : p.Steady) {c c' : Context σ} (h : p.Shown w c) (asked : p.Asks c c') :
    p.Shown w c' := by
  refine h.extend (fun x hx => ?_) (asked.extendsChain steady)
  rcases asked with rfl | ⟨t, rfl⟩
  · exact hx
  · exact Array.mem_push_of_mem _ hx

theorem Shown.takeValue (steady : p.Steady) {c : Context σ} (h : p.Shown w c) :
    p.Shown w (p.takeValue c).2 :=
  h.extend (fun _ hx => Array.mem_push_of_mem _ hx) fun b => steady.nextValue b c.world

theorem Shown.record {c : Context σ} (h : p.Shown w c) (x : Moment σ) : p.Shown w (c.record x) :=
  h.extend (fun _ hx => Array.mem_push_of_mem _ hx) fun _ => rfl

theorem Shown.proposeSplit (steady : p.Steady) (h : p.Shown w s.toContext)
    (done : p.proposeSplit s = .ok s') : p.Shown w s'.toContext := by
  unfold Host.proposeSplit at done
  simp only [pure, Except.pure] at done
  have hasked := (h.takeValue steady).takeValue steady
  split at done
  · simp only [bind_eq_ok] at done
    obtain ⟨_, -, _, -, done⟩ := done
    cases done
    exact (hasked.record _).record _
  · cases done
    exact hasked

/-- **No move adds a block unseen.** -/
theorem Move.shown (steady : p.Steady) (move : p.Move heard s s') (h : p.Shown w s.toContext) :
    p.Shown w s'.toContext := by
  cases move with
  | schedule timers asked => exact h.asks steady asked
  | refuse asked =>
    obtain ⟨hadd, hmoments⟩ := store_eq asked
    refine h.extend (fun x hx => ?_) (steady.refused hadd)
    rw [hmoments]
    exact Array.mem_push_of_mem _ hx
  | @enlist proposal c fresh valid admitted asked =>
    obtain ⟨-, hmoments⟩ := store_eq asked
    exact .inl ⟨_, by rw [hmoments]; exact Array.mem_push_self, proposal.block.id, rfl⟩
  | expose =>
    refine h.extend (fun x hx => ?_) fun b => by rw [Step.forwardAll_world]
    rw [Step.forwardAll_moments]
    exact Array.mem_append_left _ hx
  | relay | leave | commit | accuse | quit => exact h.record _
  | lock | pass | cast => exact (h.record _).record _
  | split faulty done => exact h.proposeSplit steady done
  | count | decide | follow | blame | abandon | expire => exact h

theorem Moves.shown (steady : p.Steady) (moves : p.Moves heard s s') (h : p.Shown w s.toContext) :
    p.Shown w s'.toContext := by
  induction moves with
  | refl => exact h
  | tail _ move ih => exact move.shown steady ih

theorem receive_shown (steady : p.Steady) {m : Machine} (hm : p.Sound (fun _ => True) m)
    {x : Message} (h : p.receive x ⟨.start w, m⟩ = .ok s') : p.Shown w s'.toContext := by
  by_cases hphase : m.phase = .inactive
  · obtain rfl := receive_inactive (s := ⟨.start w, m⟩) hphase h
    obtain ⟨pending, heq, -⟩ := keep_eq x ⟨.start w, m⟩
    rw [heq]
    exact .start
  · have hmoves := receive_moves (s := ⟨.start w, m⟩) ⟨hphase, hm⟩ (fun _ _ => trivial) h
    exact Moves.shown steady hmoves .start

theorem schedule_shown (steady : p.Steady) (h : p.Shown w s.toContext) (kind : TimeoutKind) :
    p.Shown w (p.schedule kind s).toContext := by
  obtain ⟨c, timers, asked, heq⟩ := p.schedule_eq kind s
  rw [heq]
  exact h.asks steady asked

theorem propose_shown (steady : p.Steady) (h : p.Shown w s.toContext)
    (done : p.propose s = .ok s') : p.Shown w s'.toContext := by
  unfold propose at done
  simp only [pure, Except.pure] at done
  have hasked := h.takeValue steady
  split at done
  · cases done
    exact hasked
  · obtain ⟨b, -, done⟩ := bind_eq_ok.mp done
    cases done
    exact hasked.record _

theorem begin_shown (steady : p.Steady) (h : p.Shown w s.toContext) (done : p.begin s = .ok s') :
    p.Shown w s'.toContext := by
  unfold begin at done
  simp only [pure, Except.pure] at done
  obtain ⟨q, -, done⟩ := bind_eq_ok.mp done
  split at done
  · unfold lead at done
    simp only [pure, Except.pure] at done
    split at done
    · exact propose_shown steady h done
    · obtain ⟨follows, -, done⟩ := bind_eq_ok.mp done
      split at done
      · exact h.proposeSplit steady done
      · cases done
        exact schedule_shown steady h _
  · cases done
    exact schedule_shown steady h _

theorem start_shown (steady : p.Steady) {m : Machine} (hm : p.Sound (fun _ => True) m)
    (inactive : m.phase = .inactive) {valid locked : Option Certificate}
    (h : p.start valid locked ⟨.start w, m⟩ = .ok s') : p.Shown w s'.toContext := by
  rcases start_cases (s := ⟨.start w, m⟩) inactive h with ⟨-, rfl⟩ | ⟨b, hb, hrest⟩
  · exact .start
  · have hrunning := hm.begun (fun _ _ _ _ => trivial) (fun _ _ _ _ => trivial) hb
    have hbegun : p.Shown w b.toContext := begin_shown (s := ⟨.start w, _⟩) steady .start hb
    exact Moves.shown steady (start_moves hrunning hm.pending hrest) hbegun

end EpochConsensus.Host
