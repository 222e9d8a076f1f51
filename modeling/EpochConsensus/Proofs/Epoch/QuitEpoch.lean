import EpochConsensus.Epoch.Script
import EpochConsensus.Proofs.Epoch.Advances
import EpochConsensus.Proofs.Epoch.Exposure
import EpochConsensus.Proofs.Epoch.Rounds
import EpochConsensus.Proofs.Replica.Outcomes

/-! # One certificate is enough

The certificate of a majority, received in one message, does for an epoch what the ballots of the
majority would have done one after the other: votes close an epoch that is open, and blame makes it
leave (`Course.quitEpoch_suffices`).  Nothing that was counted before stands in the way, since no
majority had come together yet (`Course.run_short`).

The certificate is taken up ballot by ballot.  Until a majority comes together everybody up to that
ballot has signed (`Closing`, `Leaving`); once the epoch is closed or left, the rest of the ballots
changes nothing about it.
-/
namespace EpochConsensus

/-! ### Hand-overs of a call -/

def Outcome.isFinished : Outcome → Bool
  | finished _ _ _ => true
  | decided _ _ => false

theorem Context.countP_isFinish {σ : Type} (c : Context σ) :
    c.effects.toList.countP Effect.isFinish = c.outcomes.countP Outcome.isFinished := by
  unfold outcomes
  rw [List.countP_filterMap]
  refine List.countP_congr fun e _ => ?_
  cases e <;> rfl

/-- An open epoch that is closed has handed over once. -/
theorem Machine.Leaves.countP_isFinished {m m' : Machine} {left : List Outcome}
    (leaves : m.Leaves m' left) (opened : m.IsOpen) (closed : ¬ m'.IsOpen) :
    left.countP Outcome.isFinished = 1 := by
  obtain ⟨valid, locked, rest, rfl, hrest⟩ := leaves.closes opened closed
  have hnone : rest.countP Outcome.isFinished = 0 := by
    rw [List.countP_eq_zero]
    intro o ho
    obtain ⟨b, rfl⟩ := hrest o ho
    exact Bool.false_ne_true
  rw [List.countP_cons, hnone]
  rfl

namespace Host

variable {σ : Type} {p : Host σ} {heard : Endorsement → Prop} {q : ProcessId} {s s' : Step σ}

/-! ### Taking a certificate up -/

theorem ballot_moves (hs : p.Running (fun _ => True) s) {b : Ballot}
    (h : p.whileActive (p.onBallot b) s = .ok s') : p.Moves (fun _ => True) s s' := by
  have hstrides : p.Strides (fun _ => True) (fun _ => True) s s' :=
    whileActive_strides hs (fun t ht active => onBallot_strides ht active fun _ _ => trivial) h
  exact Strides.moves hstrides

/-- An epoch that takes a certificate up ballot by ballot, and is at this stage. -/
structure Taking (p : Host σ) (e : Epoch) (stage : Machine → Prop) (s : Step σ) : Prop where
  running : p.Running (fun _ => True) s
  epoch : s.machine.epoch = e
  loud : s.machine.policy.isSilent = false
  stage : stage s.machine

/-- Each ballot is received, and brings the epoch to the next stage. -/
theorem Taking.ballot {e : Epoch} {stage stage' : Machine → Prop} {b : Ballot}
    (turn : p.proposer e = .ok q) (h : p.Taking e stage s)
    (next : ∀ s', p.whileActive (p.onBallot b) s = .ok s' → stage' s'.machine) :
    ∃ s', p.whileActive (p.onBallot b) s = .ok s' ∧ p.Taking e stage' s' := by
  obtain ⟨s', received⟩ := exists_whileActive_onBallot (h.epoch ▸ turn) b
  have hmoves := ballot_moves h.running received
  obtain ⟨hepoch, hpolicy, -⟩ := Moves.fixed hmoves
  exact ⟨s', received, Moves.running hmoves h.running, hepoch.trans h.epoch, hpolicy ▸ h.loud,
    next s' received⟩

/-- **A certificate of the epoch is taken up ballot by ballot**: the stage that each ballot brings
on is that of all ballots in the end. -/
theorem receive_quitEpoch {m : Machine} {c : Certificate} {w : σ}
    {stage : List (ProcessId × Signature) → Machine → Prop} (turn : p.proposer m.epoch = .ok q)
    (hm : p.Sound (fun _ => True) m) (loud : m.policy.isSilent = false)
    (active : m.phase ≠ .inactive ∧ m.phase ≠ .finished) (current : c.epoch = m.epoch)
    (start : ∀ m', m.Alike m' → stage [] m')
    (round : ∀ done x s s', p.Taking m.epoch (stage done) s →
      p.whileActive (p.onBallot (c.ballot x.1 x.2)) s = .ok s' → stage (done ++ [x]) s'.machine) :
    ∃ s, p.receive (.quitEpoch c) ⟨.start w, m⟩ = .ok s ∧
      p.Taking m.epoch (stage c.signatures.entries) s := by
  have halike : m.Alike (p.retryRefused ⟨.start w, m⟩).machine :=
    (retryRefused_calm ⟨.start w, m⟩).alike
  rw [receive_of_active active.1 active.2 loud]
  show ∃ s, p.onQuitEpoch c _ = .ok s ∧ _
  unfold onQuitEpoch Certificate.ballots
  rw [if_neg (not_not_intro (current.trans halike.epoch.symm)), List.foldlM_map]
  exact foldlM_reaches (motive := fun done => p.Taking m.epoch (stage done))
    (fun done x s _ ht => ht.ballot turn fun s' => round done x s s' ht)
    ⟨running_retryRefused ⟨active.1, hm⟩, halike.epoch, halike.policy ▸ loud, start _ halike⟩

/-! ### Votes -/

/-- An epoch that has handed over keeps the highest certificate. -/
theorem Move.closed (move : p.Move heard s s') (closed : ¬ s.machine.IsOpen) :
    ¬ s'.machine.IsOpen ∧ s'.machine.valid = s.machine.valid := by
  obtain ⟨left, -, hleaves⟩ := move.leaves
  refine ⟨fun opened => closed (hleaves.opened opened).1, ?_⟩
  cases move with
  | @enlist proposal =>
    obtain ⟨proposals, heq⟩ := enlist_eq s.machine proposal
    rw [heq]
  | expose => rw [Step.forwardAll_machine]
  | lock phase => exact absurd (.inl phase) closed
  | pass phase => exact absurd (.inr phase) closed
  | split faulty done => rw [proposeSplit_machine done]
  | _ => rfl

theorem Moves.closed (moves : p.Moves heard s s') (closed : ¬ s.machine.IsOpen) :
    ¬ s'.machine.IsOpen ∧ s'.machine.valid = s.machine.valid := by
  induction moves with
  | refl => exact ⟨closed, rfl⟩
  | tail _ move ih =>
    obtain ⟨hclosed, hvalid⟩ := move.closed ih.1
    exact ⟨hclosed, hvalid.trans ih.2⟩

/-- The epoch has handed over, and its highest certificate is that of a majority on this
statement. -/
structure ClosedBy (p : Host σ) (statement : Statement) (m : Machine) : Prop where
  closed : ¬ m.IsOpen
  valid : ∃ d, m.valid = some d ∧ d.statement = statement ∧ d.hasQuorum p.count = true

/-- The epoch is open still, although all of these have voted for the block. -/
structure Awaits (p : Host σ) (height : Height) (id : BlockId)
    (done : List (ProcessId × Signature)) (m : Machine) : Prop where
  opened : m.IsOpen
  short : p.Short m
  sorted : m.votes.Sorted
  signed : ∀ x ∈ done, (m.votes.get m.epoch height id).signedBy x.1 = true

/-- How far these votes of a certificate have brought the epoch. -/
def Closing (p : Host σ) (e : Epoch) (height : Height) (id : BlockId)
    (done : List (ProcessId × Signature)) (m : Machine) : Prop :=
  p.Awaits height id done m ∨ p.ClosedBy ⟨e, .block height id⟩ m

variable {height : Height} {id : BlockId} {done : List (ProcessId × Signature)}
  {x : ProcessId × Signature}

theorem Awaits.alike {m m' : Machine} (h : p.Awaits height id done m) (alike : m.Alike m') :
    p.Awaits height id done m' where
  opened := by
    unfold Machine.IsOpen
    rw [alike.phase]
    exact h.opened
  short := h.short.alike alike
  sorted := alike.votes ▸ h.sorted
  signed := by
    rw [alike.votes, alike.epoch]
    exact h.signed

/-- One more vote closes the epoch, or its sender has voted as well. -/
theorem Awaits.onVote (h : p.Awaits height id done s.machine) (hs : p.Sound heard s.machine)
    (turn : p.proposer s.machine.epoch = .ok q)
    (received : p.onVote ⟨s.machine.epoch, height, id, x.1, x.2, x.1, none⟩ s = .ok s') :
    p.Closing s.machine.epoch height id (done ++ [x]) s'.machine := by
  let v : Vote := ⟨s.machine.epoch, height, id, x.1, x.2, x.1, none⟩
  have hshort : p.Short s'.machine := Round.short (.vote received) h.short
  have hcommit : s.machine.phase ≠ .commit := by rcases h.opened with hp | hp <;> simp [hp]
  obtain ⟨hsorted, hkeeps, hsender⟩ := signers_onVote hs h.sorted turn hcommit rfl rfl received
  have hsigned : ∀ y ∈ done ++ [x],
      (s'.machine.votes.get s'.machine.epoch height id).signedBy y.1 = true :=
    List.forall_mem_append.mpr ⟨fun y hy => hkeeps _ _ _ (h.signed y hy),
      List.forall_mem_singleton.mpr hsender⟩
  rw [onVote_plain turn hcommit rfl rfl] at received
  split at received
  · cases received
    exact .inl ⟨h.opened, hshort, hsorted, hsigned⟩
  cases received
  cases hquorum : (s.machine.counted q v).hasQuorum p.count with
  | false =>
    exact .inl ⟨(onCounted_isOpen _ _ _ _).mpr ⟨h.opened, hquorum⟩, hshort, hsorted, hsigned⟩
  | true =>
    refine .inr ⟨fun hopened => ?_, s.machine.counted q v, onCounted_valid _ _ h.opened hquorum,
      hs.statement_counted q rfl, hquorum⟩
    have hnone := ((onCounted_isOpen _ _ _ _).mp hopened).2
    rw [hquorum] at hnone
    cases hnone

/-- **Each vote of the certificate brings the epoch nearer to its end.** -/
theorem Taking.vote {e : Epoch} (turn : p.proposer e = .ok q)
    (h : p.Taking e (p.Closing e height id done) s)
    (received : p.whileActive (p.onBallot (.vote ⟨e, height, id, x.1, x.2, x.1, none⟩)) s =
      .ok s') : p.Closing e height id (done ++ [x]) s'.machine := by
  obtain rfl := h.epoch
  rcases h.stage with hawaits | ⟨hclosed, hvalid⟩
  · have hactive : s.machine.phase ≠ .finished := by
      rcases hawaits.opened with hp | hp <;> simp [hp]
    rw [whileActive_eq hactive h.loud] at received
    have halike : s.machine.Alike (p.retryRefused s).machine := (retryRefused_calm s).alike
    have hsound := (running_retryRefused h.running).sound
    rw [← halike.epoch] at received turn ⊢
    exact (hawaits.alike halike).onVote hsound turn received
  · obtain ⟨hstays, hkeeps⟩ := Moves.closed (ballot_moves h.running received) hclosed
    exact .inr ⟨hstays, hkeeps ▸ hvalid⟩

/-- An epoch is not open still when everybody in a majority has voted. -/
theorem Awaits.not_quorum {c : Certificate} {m : Machine}
    (h : p.Awaits height id c.signatures.entries m) : c.hasQuorum p.count = false := by
  rw [Bool.eq_false_iff]
  intro hquorum
  obtain ⟨x, hx⟩ := Certificate.exists_signer hquorum
  obtain ⟨hmem, -⟩ := Votes.mem_of_signedBy_get (h.signed x hx)
  have hshort := h.short h.opened _ hmem
  rw [Certificate.hasQuorum_of_signers h.signed hquorum] at hshort
  cases hshort

/-- **The votes of a majority close an open epoch**, received in one message. -/
theorem receive_votes {m : Machine} {c : Certificate} (turn : p.proposer m.epoch = .ok q)
    (hm : p.Sound (fun _ => True) m) (loud : m.policy.isSilent = false)
    (awaits : p.Awaits height id [] m) (statement : c.statement = ⟨m.epoch, .block height id⟩)
    (quorum : c.hasQuorum p.count = true) (w : σ) :
    ∃ s, p.receive (.quitEpoch c) ⟨.start w, m⟩ = .ok s ∧ p.Running (fun _ => True) s ∧
      p.ClosedBy c.statement s.machine := by
  have hactive : m.phase ≠ .inactive ∧ m.phase ≠ .finished := by
    rcases awaits.opened with hp | hp <;> simp [hp]
  have hcurrent : c.epoch = m.epoch := congrArg Statement.epoch statement
  have hballot : ∀ x : ProcessId × Signature,
      c.ballot x.1 x.2 = .vote ⟨m.epoch, height, id, x.1, x.2, x.1, none⟩ := fun x => by
    simp [Certificate.ballot, statement, hcurrent]
  obtain ⟨s, received, htaking⟩ := receive_quitEpoch turn hm
    loud hactive hcurrent (fun m' alike => .inl (awaits.alike alike))
    fun done x s s' ht received => ht.vote turn (hballot x ▸ received)
  refine ⟨s, received, htaking.running, ?_⟩
  rcases htaking.stage with hawaits | hclosed
  · rw [hawaits.not_quorum] at quorum
    cases quorum
  · rwa [statement]

/-! ### Blame -/

/-- The epoch is in this phase still, although all of these have blamed the proposer. -/
structure Bears (p : Host σ) (phase : Phase) (done : List (ProcessId × Signature)) (m : Machine) :
    Prop where
  phase : m.phase = phase
  short : m.blame.hasQuorum p.count = false
  signed : ∀ x ∈ done, m.blame.signedBy x.1 = true

/-- How far this blame of a certificate has brought an epoch that was in `phase` before. -/
def Leaving (p : Host σ) (phase : Phase) (done : List (ProcessId × Signature)) (m : Machine) :
    Prop := p.Bears phase done m ∨ m.phase = phase.exposed

theorem Bears.alike {phase : Phase} {m m' : Machine} (h : p.Bears phase done m)
    (alike : m.Alike m') : p.Bears phase done m' where
  phase := alike.phase.trans h.phase
  short := alike.blame ▸ h.short
  signed := alike.blame ▸ h.signed

/-- Blame is counted unless its sender has blamed the proposer before. -/
theorem onSilence_of_current {b : Silence} (current : b.epoch = s.machine.epoch)
    (phase : s.machine.phase = .ready ∨ s.machine.phase = .locked) :
    p.onSilence b s = if s.machine.blame.signedBy b.sender then s
      else if (blamed b s).machine.blame.hasQuorum p.count then
        p.onSilenceCertificate (blamed b s) else blamed b s := by
  unfold onSilence
  rw [if_neg (by rcases phase with hp | hp <;> simp [hp, current])]
  rfl

/-- Blame of a majority makes the epoch leave as an equivocation does. -/
theorem onSilenceCertificate_phase (phase : s.machine.phase = .ready ∨ s.machine.phase = .locked) :
    (p.onSilenceCertificate s).machine.phase = s.machine.phase.exposed := by
  rcases phase with hp | hp
  · obtain ⟨c, timers, -, heq⟩ := p.schedule_eq .quitEpoch
      ((s.enter .epochChange).emit (.broadcast (.quitEpoch s.machine.blame)))
    rw [onSilenceCertificate_ready hp, heq, hp]
    rfl
  · rw [onSilenceCertificate_locked hp, hp]
    rfl

/-- One more blame makes the epoch leave, or its sender has blamed the proposer as well. -/
theorem Bears.onSilence {phase : Phase} (h : p.Bears phase done s.machine)
    (before : phase = .ready ∨ phase = .locked) {b : Silence}
    (current : b.epoch = s.machine.epoch) :
    p.Leaving phase (done ++ [(b.sender, b.signature)]) (p.onSilence b s).machine := by
  obtain rfl := h.phase
  rw [onSilence_of_current current before]
  split
  · rename_i hknown
    exact .inl ⟨rfl, h.short, List.forall_mem_append.mpr
      ⟨h.signed, List.forall_mem_singleton.mpr hknown⟩⟩
  split
  · exact .inr (onSilenceCertificate_phase (s := blamed b s) before)
  · rename_i hquorum
    refine .inl ⟨rfl, Bool.eq_false_iff.mpr hquorum, List.forall_mem_append.mpr
      ⟨fun y hy => ?_, List.forall_mem_singleton.mpr ?_⟩⟩
    · simp [blamed, Certificate.signedBy_add, h.signed y hy]
    · simp [blamed, Certificate.signedBy_add]

/-- An epoch that was left stays so, whatever blame comes in. -/
theorem onSilence_left {b : Silence} (left : s.machine.phase = .epochChange) :
    p.onSilence b s = s := by
  unfold onSilence
  rw [if_pos (by simp [left])]

/-- **Each blame of the certificate brings the epoch nearer to its end.** -/
theorem Taking.silence {e : Epoch} {phase : Phase} (before : phase = .ready ∨ phase = .locked)
    (h : p.Taking e (p.Leaving phase done) s)
    (received : p.whileActive (p.onBallot (.silence ⟨e, x.1, x.2⟩)) s = .ok s') :
    p.Leaving phase (done ++ [x]) s'.machine := by
  obtain rfl := h.epoch
  have halike : s.machine.Alike (p.retryRefused s).machine := (retryRefused_calm s).alike
  rcases h.stage with hbears | hleft
  · have hactive : s.machine.phase ≠ .finished := by
      rw [hbears.phase]
      rcases before with rfl | rfl <;> simp
    rw [whileActive_eq hactive h.loud] at received
    cases received
    exact (hbears.alike halike).onSilence (b := ⟨s.machine.epoch, x.1, x.2⟩) before
      halike.epoch.symm
  refine .inr ?_
  rcases before with rfl | rfl
  · rw [whileActive_eq (by simp [hleft, Phase.exposed]) h.loud] at received
    cases received
    rw [onSilence_left (halike.phase.trans hleft), halike.phase, hleft]
  · unfold whileActive at received
    rw [if_pos (by simp [hleft, Phase.exposed])] at received
    cases received
    exact hleft

/-- **The blame of a majority makes an epoch leave**, received in one message. -/
theorem receive_blame {m : Machine} {c : Certificate} (turn : p.proposer m.epoch = .ok q)
    (hm : p.Sound (fun _ => True) m) (loud : m.policy.isSilent = false)
    (before : m.phase = .ready ∨ m.phase = .locked) (bears : p.Bears m.phase [] m)
    (statement : c.statement = ⟨m.epoch, .silence⟩) (quorum : c.hasQuorum p.count = true) (w : σ) :
    ∃ s, p.receive (.quitEpoch c) ⟨.start w, m⟩ = .ok s ∧
      s.machine.phase = m.phase.exposed := by
  have hactive : m.phase ≠ .inactive ∧ m.phase ≠ .finished := by
    rcases before with hp | hp <;> simp [hp]
  have hcurrent : c.epoch = m.epoch := congrArg Statement.epoch statement
  have hballot : ∀ x : ProcessId × Signature,
      c.ballot x.1 x.2 = .silence ⟨m.epoch, x.1, x.2⟩ := fun x => by
    simp [Certificate.ballot, statement, hcurrent]
  obtain ⟨s, received, htaking⟩ := receive_quitEpoch turn hm loud
    hactive hcurrent (fun m' alike => .inl (bears.alike alike))
    fun done x s s' ht received => ht.silence before (hballot x ▸ received)
  refine ⟨s, received, ?_⟩
  rcases htaking.stage with hbears | hleft
  · have hshort := hbears.short
    rw [Certificate.hasQuorum_of_signers hbears.signed quorum] at hshort
    cases hshort
  · exact hleft

end Host

/-! ### Runs -/

namespace Course

variable {σ : Type} {p : Host σ} {q : ProcessId} {e : Epoch} {c : Course σ}

/-- **One certificate is enough.**  After any run of calls the certificate of a majority is received
with success.  One of votes locks or ends an epoch that is open: it is handed over once in this
call, and a majority has voted for the certificate's block.  One of blame makes an epoch that is
ready leave, and ends one that is locked. -/
theorem quitEpoch_suffices {policy : Policy} {pendingLimit : Nat} {calls : List (Call × σ)}
    (loud : policy.isSilent = false) (turn : p.proposer e = .ok q)
    (ran : (create e policy pendingLimit).run p calls = .ok c) {d : Certificate}
    (current : d.epoch = e) (quorum : d.hasQuorum p.count = true) (w : σ) :
    (d.kind = .block → c.machine.phase = .ready ∨ c.machine.phase = .epochChange →
      ∃ s, p.receive (.quitEpoch d) ⟨.start w, c.machine⟩ = .ok s ∧
        (s.machine.phase = .locked ∨ s.machine.phase = .commit ∨ s.machine.phase = .finished) ∧
        s.effects.toList.countP Effect.isFinish = 1 ∧
        ∃ v, s.machine.valid = some v ∧ v.statement = d.statement ∧
          v.hasQuorum p.count = true) ∧
    (d.kind = .silence → c.machine.phase = .ready ∨ c.machine.phase = .locked →
      ∃ s, p.receive (.quitEpoch d) ⟨.start w, c.machine⟩ = .ok s ∧
        (c.machine.phase = .ready → s.machine.phase = .epochChange) ∧
        (c.machine.phase = .locked → s.machine.phase = .finished)) := by
  obtain ⟨hchanges, hsound⟩ := run_changes (sound_create e policy pendingLimit) ran
  obtain ⟨hshort, hunblamed⟩ := run_short ran
  have hwatched : Watched q e c := hchanges.watched turn (watched_create q e policy pendingLimit)
  have hloud : c.machine.policy.isSilent = false := by rw [hchanges.policy]; exact loud
  obtain rfl := hwatched.epoch
  obtain ⟨⟨epoch, subject⟩, signatures⟩ := d
  obtain rfl : epoch = c.machine.epoch := current
  cases subject with
  | silence =>
    refine ⟨(by rintro ⟨⟩), fun _ before => ?_⟩
    obtain ⟨s, received, hleft⟩ := Host.receive_blame turn hsound hloud before
      ⟨rfl, hunblamed.blame (.inr before), by simp⟩ rfl quorum w
    exact ⟨s, received, fun hp => by rw [hleft, hp]; rfl, fun hp => by rw [hleft, hp]; rfl⟩
  | block height id =>
    refine ⟨fun _ opened => ?_, (by rintro ⟨⟩)⟩
    obtain ⟨s, received, ⟨hstarted, -⟩, hclosed, hvalid⟩ := Host.receive_votes turn hsound hloud
      ⟨opened, hshort, hwatched.sorted, by simp⟩ rfl quorum w
    have hleft := Host.receive_leaves hsound (fun _ _ => trivial) received
    refine ⟨s, received, ?_, ?_, hvalid⟩
    · unfold Machine.IsOpen at hclosed
      cases hphase : s.machine.phase <;> simp [hphase] at hstarted hclosed ⊢
    · rw [Context.countP_isFinish]
      exact hleft.leaves.countP_isFinished opened hclosed

/-- The votes of processes 0 and 2 for a block. -/
def laterVotes : Certificate :=
  ((Certificate.block 0 0 ⟨.fill 32 2⟩).add 0 ⟨.fill 64 1⟩).add 2 ⟨.fill 64 1⟩

/-- In this run process 1 of three has received the proposer's vote for one block when the
certificate of another one comes in: it exposes the proposer, and closes the epoch all the same. -/
theorem quitEpoch_suffices_later :
    let p := Script.host 1 3 none fun _ => 0
    ∃ c s, (create 0 ⟨.honest, false⟩ 1).run p (doubleCalls.take 2) = .ok c ∧
      p.proposer 0 = .ok 0 ∧ laterVotes.hasQuorum p.count = true ∧ c.machine.phase = .ready ∧
      p.receive (.quitEpoch laterVotes) ⟨.start ⟨[], none, true, true, true⟩, c.machine⟩ = .ok s ∧
      s.effects.toList.countP Effect.isFinish = 1 ∧ ∃ v, s.machine.valid = some v ∧
        v.statement = laterVotes.statement ∧ v.hasQuorum p.count = true := by
  intro p
  obtain ⟨c, ran, phase⟩ : ∃ c, (create 0 ⟨.honest, false⟩ 1).run p (doubleCalls.take 2) = .ok c ∧
      c.machine.phase = .ready := exists_of_toOption (by decide +kernel)
  have turn : p.proposer 0 = .ok 0 := by decide +kernel
  have quorum : laterVotes.hasQuorum p.count = true := by decide +kernel
  obtain ⟨s, received, -, hfinish, hvalid⟩ :=
    (quitEpoch_suffices rfl turn ran rfl quorum ⟨[], none, true, true, true⟩).1 rfl (.inl phase)
  exact ⟨c, s, ran, turn, quorum, phase, received, hfinish, hvalid⟩

end Course

end EpochConsensus
