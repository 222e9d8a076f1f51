import EpochConsensus.Proofs.Epoch.Calls

/-! # Messages before the start

Messages that come before an epoch starts wait, and are received once it has begun.  That is as good
as receiving them after the start (`Host.start_receives`), for two reasons.

What a message brings about does not depend on what the call has done before (`Step.after`): every
handler goes on in the same way (`Host.receive_after`).  And an epoch begins in the same way
whatever waits for it (`Host.drained_begin`): only the states on record show the waiting messages,
and no effect does (`Step.view`).
-/
namespace EpochConsensus

variable {σ : Type}

/-! ### What was done before does not matter -/

/-- The context with more done before. -/
abbrev Context.after (past : Array (Moment σ)) (c : Context σ) : Context σ :=
  { c with moments := past ++ c.moments }

/-- The epoch in the middle of a call that had done more before. -/
abbrev Step.after (past : Array (Moment σ)) (s : Step σ) : Step σ :=
  { s with toContext := s.toContext.after past }

namespace Step

variable (past : Array (Moment σ)) (s : Step σ)

theorem mk_after (c : Context σ) (m : Machine) :
    (⟨c.after past, m⟩ : Step σ) = Step.after past ⟨c, m⟩ := rfl

theorem enter_after (phase : Phase) :
    (s.after past).enter phase = (s.enter phase).after past := rfl

theorem emit_after (e : Effect) : (s.after past).emit e = (s.emit e).after past := by
  simp [after, emit, Context.after, Context.record]

theorem forwardAll_after (bs : List Ballot) :
    (s.after past).forwardAll bs = (s.forwardAll bs).after past := by
  induction bs generalizing s with
  | nil => rfl
  | cons b bs ih =>
    show ((s.after past).emit (.forward b.toMessage)).forwardAll bs = _
    rw [emit_after, ih]
    rfl

end Step

namespace Host

variable {p : Host σ} (past : Array (Moment σ)) (s : Step σ)

theorem request_after (c : Context σ) (t : Timeout) :
    p.request (c.after past) t = ((p.request c t).1, (p.request c t).2.after past) := by
  simp [request, Context.after, Context.emit, Context.record]

theorem store_after (c : Context σ) (b : Block) :
    p.store (c.after past) b = (fun x => (x.1, x.2.after past)) <$> p.store c b := by
  have hworld : (c.after past).world = c.world := rfl
  unfold store
  rw [hworld]
  cases p.addBlock b c.world with
  | error e => rfl
  | ok x =>
    show Except.ok (_, _) = Except.ok (_, _)
    simp [Context.after, Context.emit, Context.record]

theorem schedule_after (kind : TimeoutKind) :
    p.schedule kind (s.after past) = (p.schedule kind s).after past := by
  unfold schedule
  simp only [request_after]
  split <;> rfl

theorem retryRefused_after : p.retryRefused (s.after past) = (p.retryRefused s).after past := by
  unfold retryRefused
  generalize TimeoutKind.all = kinds
  induction kinds generalizing s with
  | nil => rfl
  | cons kind kinds ih =>
    simp only [List.foldl_cons, schedule_after]
    split <;> exact ih _

theorem tryToCommit_after : p.tryToCommit (s.after past) = (p.tryToCommit s).after past := by
  unfold tryToCommit
  simp only [Step.enter_after, Step.emit_after]
  split
  · exact (apply_ite (Step.after past) _ _ _).symm
  · rfl

theorem decideLocked_after : p.decideLocked (s.after past) = (p.decideLocked s).after past := by
  unfold decideLocked
  simp only [Step.mk_after, tryToCommit_after]
  split
  · rfl
  · split <;> rfl

theorem onBlockCertificate_after (c : Certificate) :
    p.onBlockCertificate c (s.after past) = (p.onBlockCertificate c s).after past := by
  unfold onBlockCertificate
  simp only [Step.mk_after]
  split
  · rfl
  · rfl
  · rfl
  · split
    · simp only [schedule_after, Step.emit_after]
    · simp only [Step.emit_after]
    · simp only [Step.emit_after]

theorem onSilenceCertificate_after :
    p.onSilenceCertificate (s.after past) = (p.onSilenceCertificate s).after past := by
  unfold onSilenceCertificate
  simp only [Step.enter_after, Step.emit_after, schedule_after]
  split <;> rfl

theorem exposeEquivocation_after (proposer : ProcessId) :
    p.exposeEquivocation proposer (s.after past) =
      (p.exposeEquivocation proposer s).after past := by
  unfold exposeEquivocation
  dsimp only [Step.mk_after]
  simp only [schedule_after, ← apply_ite (Step.after past), Step.forwardAll_after]

theorem onCounted_after (proposer : ProcessId) (signed : Bool) (c : Certificate) :
    p.onCounted proposer signed c (s.after past) =
      (p.onCounted proposer signed c s).after past := by
  unfold onCounted
  simp only [Step.mk_after, exposeEquivocation_after,
    ← apply_ite (Step.after past), onBlockCertificate_after, decideLocked_after]

theorem onSilence_after (b : Silence) :
    p.onSilence b (s.after past) = (p.onSilence b s).after past := by
  unfold onSilence
  dsimp only [Step.mk_after]
  simp only [onSilenceCertificate_after, ← apply_ite (Step.after past)]

/-! ### Handlers that may fail -/

theorem onVote_after (v : Vote) :
    p.onVote v (s.after past) = Step.after past <$> p.onVote v s := by
  unfold onVote
  simp only [onCounted_after]
  split
  · rfl
  · cases p.proposer s.machine.epoch with
    | error => rfl
    | ok proposer =>
      simp only [bind, Except.bind]
      split <;> rfl

theorem onBallot_after (b : Ballot) :
    p.onBallot b (s.after past) = Step.after past <$> p.onBallot b s := by
  cases b with
  | silence b => exact congrArg Except.ok (onSilence_after past s b)
  | vote v => exact onVote_after past s v

theorem cast_after (proposal : Proposal) :
    p.cast proposal (s.after past) = (p.cast proposal s).after past := by
  simp only [cast, Step.emit_after, Step.mk_after]

theorem voteFor_after (proposal : Proposal) :
    p.voteFor proposal (s.after past) = Step.after past <$> p.voteFor proposal s := by
  simp only [voteFor, Step.emit_after, onVote_after, bind_map_left, map_bind, map_pure, cast_after]

theorem tryToVote_after : p.tryToVote (s.after past) = Step.after past <$> p.tryToVote s := by
  unfold tryToVote
  simp only [voteFor_after]
  split
  · rfl
  simp only [map_bind]
  refine bind_congr fun proposer => ?_
  split
  · rfl
  · split
    · rfl
    · split <;> rfl

theorem voteAnyway_after (proposal : Proposal) :
    p.voteAnyway proposal (s.after past) = Step.after past <$> p.voteAnyway proposal s := by
  simp only [voteAnyway, voteFor_after, bind_map_left, map_bind]
  refine bind_congr fun t => ?_
  split <;> rfl

theorem onProposal_after (proposal : Proposal) :
    p.onProposal proposal (s.after past) = Step.after past <$> p.onProposal proposal s := by
  unfold onProposal
  simp only [store_after]
  split
  · rfl
  simp only [map_bind]
  refine bind_congr fun valid => ?_
  split
  · rfl
  simp only [map_bind, bind_map_left]
  refine bind_congr fun x => ?_
  split
  · rfl
  simp only [Step.mk_after, tryToVote_after, voteAnyway_after]
  split <;> simp only [bind_map_left, map_bind, map_pure, tryToCommit_after]

/-! ### Messages -/

theorem whileActive_after {handle : Step σ → Except Fault (Step σ)}
    (handled : ∀ t, handle (t.after past) = Step.after past <$> handle t) :
    p.whileActive handle (s.after past) = Step.after past <$> p.whileActive handle s := by
  unfold whileActive
  simp only [retryRefused_after, handled]
  split <;> rfl

/-- A loop does not see what was done before if no round of it does. -/
theorem foldlM_after {α : Type} {f : Step σ → α → Except Fault (Step σ)}
    (round : ∀ t x, f (t.after past) x = Step.after past <$> f t x) (xs : List α) :
    xs.foldlM f (s.after past) = Step.after past <$> xs.foldlM f s := by
  induction xs generalizing s with
  | nil => rfl
  | cons x xs ih => simp only [List.foldlM_cons, round, bind_map_left, map_bind, ih]

theorem onQuitEpoch_after (c : Certificate) :
    p.onQuitEpoch c (s.after past) = Step.after past <$> p.onQuitEpoch c s := by
  unfold onQuitEpoch
  split
  · rfl
  · exact foldlM_after past s
      (fun t b => whileActive_after past t fun u => onBallot_after past u b) _

theorem onMessage_after (m : Message) :
    p.onMessage m (s.after past) = Step.after past <$> p.onMessage m s := by
  cases m with
  | propose proposal => exact onProposal_after past s proposal
  | silence b => exact congrArg Except.ok (onSilence_after past s b)
  | vote v => exact onVote_after past s v
  | quitEpoch c => exact onQuitEpoch_after past s c
  | _ => rfl

theorem keep_after (m : Message) : keep m (s.after past) = (keep m s).after past := by
  unfold keep
  simp only [Step.mk_after, ← apply_ite (Step.after past)]

/-- **What was done before makes no difference to what a message brings about.** -/
theorem receive_after (m : Message) :
    p.receive m (s.after past) = Step.after past <$> p.receive m s := by
  unfold receive
  simp only [keep_after, whileActive_after past s fun t => onMessage_after past t m]
  split <;> rfl

end Host

/-! ### What is seen of a call -/

/-- What is seen of an epoch in the middle of a call: its state, that of its host, and what it has
done, in order. -/
def Step.view (s : Step σ) : Machine × σ × Array Effect :=
  (s.machine, s.world, s.toContext.effects)

/-- The epoch without the messages that waited for its start. -/
def Step.drained (s : Step σ) : Step σ := { s with machine.pending := [] }

theorem Step.view_after (past : Array (Moment σ)) (s : Step σ) :
    (s.after past).view = (s.machine, s.world, past.map (·.effect) ++ s.toContext.effects) := by
  simp [view, Context.effects]

namespace Host

variable {p : Host σ}

/-- What receiving messages brings about can be told from what is seen before it. -/
theorem view_receiveAll (messages : List Message) {s t : Step σ} (h : s.view = t.view) :
    Step.view <$> messages.foldlM (fun s m => p.receive m s) s =
      Step.view <$> messages.foldlM (fun s m => p.receive m s) t := by
  obtain ⟨⟨w, past⟩, m⟩ := s
  obtain ⟨⟨w', past'⟩, m'⟩ := t
  obtain ⟨rfl, rfl, heffects⟩ : m = m' ∧ w = w' ∧
      past.map (·.effect) = past'.map (·.effect) := by
    simpa [Step.view, Context.effects] using h
  -- both loops are the one that starts with nothing done
  have hloop : ∀ done : Array (Moment σ),
      Step.view <$> messages.foldlM (fun s m => p.receive m s) ⟨⟨w, done⟩, m⟩ =
        (fun u => (u.machine, u.world, done.map (·.effect) ++ u.toContext.effects)) <$>
          messages.foldlM (fun s m => p.receive m s) ⟨.start w, m⟩ := by
    intro done
    have hdone : (⟨⟨w, done⟩, m⟩ : Step σ) = Step.after done ⟨.start w, m⟩ := by
      show _ = (⟨⟨w, done ++ #[]⟩, m⟩ : Step σ)
      rw [Array.append_empty]
    rw [hdone, foldlM_after done _ (fun t x => receive_after done t x), Functor.map_map]
    simp only [Step.view_after]
  rw [hloop past, hloop past', heffects]

/-! ### Beginning with messages that wait -/

section Waiting

variable (s : Step σ) (pending : List Message)

theorem drained_schedule (kind : TimeoutKind) :
    (p.schedule kind { s with machine.pending := pending }).drained.view =
      (p.schedule kind s).drained.view := by
  unfold schedule
  split <;> rfl

theorem drained_propose :
    (fun t => t.drained.view) <$> p.propose { s with machine.pending := pending } =
      (fun t => t.drained.view) <$> p.propose s := by
  unfold propose
  dsimp only
  cases (p.takeValue s.toContext).1 with
  | none => rfl
  | some value =>
    simp only [map_bind]
    refine bind_congr fun b => ?_
    simp [Step.drained, Step.view, Context.effects]

theorem drained_proposeSplit :
    (fun t => t.drained.view) <$> p.proposeSplit { s with machine.pending := pending } =
      (fun t => t.drained.view) <$> p.proposeSplit s := by
  unfold proposeSplit
  dsimp only
  split
  · simp only [map_bind]
    refine bind_congr fun a => bind_congr fun b => ?_
    simp [Step.drained, Step.view, Context.effects]
  · rfl

/-- **An epoch begins in the same way whatever waits for it.** -/
theorem drained_begin :
    (fun t => t.drained.view) <$> p.begin { s with machine.pending := pending } =
      (fun t => t.drained.view) <$> p.begin s := by
  unfold begin
  simp only [map_bind]
  refine bind_congr fun proposer => ?_
  split
  · unfold lead
    split
    · exact drained_propose s pending
    · simp only [map_bind]
      refine bind_congr fun follows => ?_
      split
      · exact drained_proposeSplit s pending
      · exact congrArg Except.ok (drained_schedule s pending .epochChange)
  · exact congrArg Except.ok (drained_schedule s pending .propose)

end Waiting

/-! ### Starting with messages that wait -/

/-- Before the start messages are kept, as many as may wait. -/
theorem receiveAll_inactive (messages : List Message) {s : Step σ}
    (inactive : s.machine.phase = .inactive)
    (few : s.machine.pending.length ≤ s.machine.pendingLimit) :
    messages.foldlM (fun s m => p.receive m s) s = .ok { s with
      machine.pending := (s.machine.pending ++ messages).take s.machine.pendingLimit } := by
  induction messages generalizing s with
  | nil => simp [List.take_of_length_le few, pure, Except.pure]
  | cons x xs ih =>
    have hreceive : p.receive x s = .ok (keep x s) := by rw [receive, if_pos inactive]
    show p.receive x s >>= _ = _
    rw [hreceive]
    show xs.foldlM (fun s m => p.receive m s) (keep x s) = _
    unfold keep
    split
    · rename_i hroom
      refine (ih (s := { s with machine.pending := s.machine.pending ++ [x] }) inactive
        (by simpa using Nat.succ_le_of_lt hroom)).trans ?_
      simp
    · rename_i hfull
      have hlength : s.machine.pendingLimit ≤ s.machine.pending.length := Nat.le_of_not_lt hfull
      rw [ih inactive few, List.take_append_of_le_length hlength,
        List.take_append_of_le_length hlength]

/-- A silent process receives nothing. -/
theorem receiveAll_silent (messages : List Message) {s : Step σ}
    (started : s.machine.phase ≠ .inactive) (silent : s.machine.policy.isSilent = true) :
    messages.foldlM (fun s m => p.receive m s) s = .ok s := by
  induction messages with
  | nil => rfl
  | cons x xs ih =>
    have hreceive : p.receive x s = .ok s := by
      rw [receive, if_neg started, whileActive, if_pos (by simp [silent])]
    show p.receive x s >>= _ = _
    rw [hreceive]
    exact ih

theorem start_silent {s : Step σ} (inactive : s.machine.phase = .inactive)
    (silent : s.machine.policy.isSilent = true) (valid locked : Option Certificate) :
    p.start valid locked s =
      .ok { s with machine := s.machine.opened valid locked : Step σ }.drained := by
  unfold start
  rw [if_neg (by simp [Machine.started, inactive])]
  exact if_pos silent

/-- A first start begins the epoch, and then takes the messages that waited. -/
theorem start_begins {s : Step σ} (inactive : s.machine.phase = .inactive)
    (active : ¬ s.machine.policy.isSilent = true) (valid locked : Option Certificate) :
    p.start valid locked s =
      p.begin { s with machine := s.machine.opened valid locked } >>= fun b =>
        s.machine.pending.foldlM (fun s m => p.receive m s) b.drained := by
  unfold start
  rw [if_neg (by simp [Machine.started, inactive])]
  exact if_neg active

/-- Two computations with the same outcomes, drained, go on in the same way once drained. -/
theorem view_bind_drained {x y : Except Fault (Step σ)} (messages : List Message)
    (h : (fun t => t.drained.view) <$> x = (fun t => t.drained.view) <$> y) :
    Step.view <$> (x >>= fun b => messages.foldlM (fun s m => p.receive m s) b.drained) =
      Step.view <$> (y >>= fun b => messages.foldlM (fun s m => p.receive m s) b.drained) := by
  cases x with
  | error e =>
    cases y with
    | error e' =>
      obtain rfl : e = e' := Except.error.inj h
      rfl
    | ok t => cases h
  | ok s =>
    cases y with
    | error e => cases h
    | ok t => exact view_receiveAll messages (Except.ok.inj h)

variable (p)

/-- **Messages that come before the start are as good as messages that come after it.**  A new
epoch of any policy keeps what it receives before its start and does nothing.  To start it then, and
to start it first and have it receive as many of the messages, in order, as may wait, comes to the
same: the same fault, or the same state, left by the same effects in the same order. -/
theorem start_receives (epoch : Epoch) (policy : Policy) (pendingLimit : Nat)
    (messages : List Message) (valid locked : Option Certificate) (w : σ) :
    let fresh : Step σ := ⟨.start w, .create epoch policy pendingLimit⟩
    ∃ kept, messages.foldlM (fun s m => p.receive m s) fresh = .ok kept ∧
      kept.toContext = fresh.toContext ∧
      Step.view <$> p.start valid locked kept =
        Step.view <$> (p.start valid locked fresh >>= fun s =>
          (messages.take pendingLimit).foldlM (fun s m => p.receive m s) s) := by
  intro fresh
  refine ⟨_, receiveAll_inactive messages rfl (Nat.zero_le _), rfl, ?_⟩
  have hpending : fresh.machine.pending ++ messages = messages := List.nil_append _
  rw [hpending]
  by_cases silent : policy.isSilent = true
  · rw [start_silent (s := fresh) rfl silent, start_silent rfl silent]
    refine congrArg (Step.view <$> ·) (receiveAll_silent _ ?_ silent).symm
    simp [Step.drained, Machine.opened]
  · rw [start_begins (s := fresh) rfl silent, start_begins rfl silent, bind_assoc]
    exact view_bind_drained _ (drained_begin ⟨.start w, fresh.machine.opened valid locked⟩ _)

end Host

end EpochConsensus
