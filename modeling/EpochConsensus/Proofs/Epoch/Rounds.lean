import EpochConsensus.Proofs.Epoch.Runs
import EpochConsensus.Proofs.Epoch.Tally

/-! # Majorities are acted on at once

An epoch that has not handed over holds no majority of votes for any block, and one that may still
lock or decide no majority of blame: it would have acted on them (`Host.Short`, `Course.Unblamed`).
This holds after every call (`Course.run_short`).

In the middle of a call it does not, since a vote is counted before it is acted on.  So a message is
followed in rounds, each of which takes one ballot up altogether (`Host.Round`): what all rounds
keep, every message keeps (`Host.receive_rounds`).
-/
namespace EpochConsensus

variable {σ : Type}

namespace Host

section
variable (p : Host σ)

/-- What a message brings about, one ballot at a time. -/
inductive Round : Step σ → Step σ → Prop
  | calm {s s' : Step σ} (calm : s.Calm s') : Round s s'
  | vote {s s' : Step σ} {v : Vote} (done : p.onVote v s = .ok s') : Round s s'
  | silence (s : Step σ) (b : Silence) : Round s (p.onSilence b s)
  | commit (s : Step σ) : Round s (p.tryToCommit s)

/-- Any number of rounds. -/
abbrev Rounds : Step σ → Step σ → Prop := Relation.ReflTransGen p.Round

/-- An epoch that is open holds no majority of votes. -/
def Short (m : Machine) : Prop := m.IsOpen → ∀ d ∈ m.votes.toList, d.hasQuorum p.count = false

end

variable {p : Host σ} {heard : Endorsement → Prop} {q : ProcessId} {s s' : Step σ}

/-! ### One ballot -/

theorem retryRefused_calm (s : Step σ) : s.Calm (p.retryRefused s) := by
  unfold retryRefused
  generalize TimeoutKind.all = kinds
  induction kinds generalizing s with
  | nil => exact .refl s
  | cons kind kinds ih =>
    rw [List.foldl_cons]
    split
    · exact (schedule_calm kind s).trans (ih _)
    · exact ih s

/-- Every vote can be counted. -/
theorem exists_onVote (turn : p.proposer s.machine.epoch = .ok q) (v : Vote) :
    ∃ s', p.onVote v s = .ok s' := by
  unfold onVote
  rw [turn]
  split
  · exact ⟨_, rfl⟩
  · simp only [bind, Except.bind, pure, Except.pure]
    split <;> exact ⟨_, rfl⟩

/-- Every ballot can be received. -/
theorem exists_whileActive_onBallot (turn : p.proposer s.machine.epoch = .ok q) (b : Ballot) :
    ∃ s', p.whileActive (p.onBallot b) s = .ok s' := by
  unfold whileActive
  split
  · exact ⟨_, rfl⟩
  cases b with
  | silence b => exact ⟨_, rfl⟩
  | vote v =>
    have turn : p.proposer (p.retryRefused s).machine.epoch = .ok q := by
      rw [(retryRefused_calm s).alike.epoch, turn]
    exact exists_onVote turn v

theorem whileActive_eq (active : s.machine.phase ≠ .finished)
    (loud : s.machine.policy.isSilent = false) (handle : Step σ → Except Fault (Step σ)) :
    p.whileActive handle s = handle (p.retryRefused s) := by
  unfold whileActive
  rw [if_neg (by simp [active, loud])]

/-- A started epoch that has not ended receives a message after what was refused. -/
theorem receive_of_active (started : s.machine.phase ≠ .inactive)
    (active : s.machine.phase ≠ .finished) (loud : s.machine.policy.isSilent = false)
    (x : Message) : p.receive x s = p.onMessage x (p.retryRefused s) := by
  unfold receive
  rw [if_neg started, whileActive_eq active loud]

theorem running_retryRefused (hs : p.Running heard s) : p.Running heard (p.retryRefused s) := by
  have hstrides : p.Strides heard (fun _ => True) s (p.retryRefused s) :=
    (retryRefused_strides s).1
  exact Strides.running hstrides hs

/-! ### Messages in rounds -/

theorem voteFor_rounds {proposal : Proposal} (h : p.voteFor proposal s = .ok s') :
    p.Rounds s s' := by
  unfold voteFor at h
  simp only [pure, Except.pure] at h
  obtain ⟨t, hvote, h⟩ := bind_eq_ok.mp h
  cases h
  exact .head (.calm (.emit ⟨rfl, rfl⟩)) (.head (.vote hvote) (.single (.calm
    (.trans (.emit ⟨rfl, rfl⟩) (.trans (.emit ⟨rfl, rfl⟩) (.of_alike .aside))))))

theorem tryToVote_rounds (h : p.tryToVote s = .ok s') : p.Rounds s s' := by
  rcases tryToVote_cases h with rfl | ⟨proposal, -, -, h⟩
  · exact .refl
  · exact voteFor_rounds h

theorem voteAnyway_rounds {proposal : Proposal} (faulty : s.machine.policy.isHonest = false)
    (h : p.voteAnyway proposal s = .ok s') : p.Rounds s s' := by
  unfold voteAnyway at h
  simp only [pure, Except.pure] at h
  obtain ⟨t, hvote, h⟩ := bind_eq_ok.mp h
  have hpolicy : t.machine.policy = s.machine.policy := by
    unfold voteFor at hvote
    obtain ⟨u, hu, hvote⟩ := bind_eq_ok.mp hvote
    cases hvote
    exact (quiet_onVote hu).policy
  split at h
  · cases h
    refine (voteFor_rounds hvote).tail (.calm (.of_alike ⟨rfl, rfl, rfl, rfl, rfl, rfl, rfl, ?_⟩))
    -- only a faulty process moves its lock
    intro honest
    rw [hpolicy, faulty] at honest
    cases honest
  · cases h
    exact voteFor_rounds hvote

theorem onProposal_rounds {proposal : Proposal} (h : p.onProposal proposal s = .ok s') :
    p.Rounds s s' := by
  rcases onProposal_cases h with rfl | ⟨-, -, added, c, asked, ⟨-, rfl⟩ | ⟨-, t, rfl, ht⟩⟩
  · exact .refl
  · exact .single (.calm (store_calm asked))
  · obtain ⟨proposals, heq⟩ := enlist_eq s.machine proposal
    rw [heq] at ht
    have henlist : s.Calm { s with toContext := c, machine.proposals := proposals } :=
      (store_calm asked).trans (.of_alike .aside)
    refine .head (.calm henlist) (.tail ?_ (.commit t))
    rcases ht with ht | ⟨faulty, ht⟩
    · exact tryToVote_rounds ht
    · exact voteAnyway_rounds faulty ht

theorem onBallot_rounds {b : Ballot} (h : p.onBallot b s = .ok s') : p.Rounds s s' := by
  cases b with
  | silence b =>
    cases h
    exact .single (.silence s b)
  | vote v => exact .single (.vote h)

theorem whileActive_rounds {handle : Step σ → Except Fault (Step σ)}
    (handled : ∀ t, handle t = .ok s' → p.Rounds t s') (h : p.whileActive handle s = .ok s') :
    p.Rounds s s' := by
  unfold whileActive at h
  split at h
  · cases h
    exact .refl
  · exact .head (.calm (retryRefused_calm s)) (handled _ h)

theorem onQuitEpoch_rounds {c : Certificate} (h : p.onQuitEpoch c s = .ok s') :
    p.Rounds s s' := by
  unfold onQuitEpoch at h
  split at h
  · cases h
    exact .refl
  · refine foldlM_keeps (motive := p.Rounds s) ?_ h .refl
    intro t b t' hb ht hround
    exact ht.trans (whileActive_rounds (fun u hu => onBallot_rounds hu) hround)

theorem onMessage_rounds {m : Message} (h : p.onMessage m s = .ok s') : p.Rounds s s' := by
  cases m with
  | propose proposal => exact onProposal_rounds h
  | silence b =>
    cases h
    exact .single (.silence s b)
  | vote v => exact .single (.vote h)
  | quitEpoch c => exact onQuitEpoch_rounds h
  | certificate | probe | answer =>
    cases h
    exact .refl

/-- **A message is received in rounds.** -/
theorem receive_rounds {m : Message} (h : p.receive m s = .ok s') : p.Rounds s s' := by
  unfold receive at h
  split at h
  · cases h
    exact .single (.calm (keep_calm m s))
  · exact whileActive_rounds (fun t => onMessage_rounds) h

/-! ### What rounds keep -/

theorem Short.alike {m m' : Machine} (h : p.Short m) (alike : m.Alike m') : p.Short m' := by
  unfold Short Machine.IsOpen
  rw [alike.phase, alike.votes]
  exact h

theorem short_of_closed {m : Machine} (closed : ¬ m.IsOpen) : p.Short m :=
  fun opened => absurd opened closed

/-- **Every round leaves an open epoch short of a majority.** -/
theorem Round.short (round : p.Round s s') (h : p.Short s.machine) : p.Short s'.machine := by
  cases round with
  | calm calm => exact h.alike calm.alike
  | vote done =>
    rcases onVote_cases done with rfl | ⟨proposer, signed, -, -, -, -, rfl⟩
    · exact h
    intro opened d hd
    obtain ⟨hopen, hquorum⟩ := (onCounted_isOpen _ _ _ _).mp opened
    rw [onCounted_votes] at hd
    rcases s.machine.votes.mem_of_mem_put hd with rfl | hold
    · exact hquorum
    · exact h hopen d hold
  | silence b =>
    obtain ⟨phase, blame, timers, heq, hphase⟩ := p.onSilence_eq b s
    rw [heq]
    rcases hphase with rfl | ⟨rfl, hready⟩ | rfl
    · exact h
    · exact fun _ => h (.inl hready)
    · exact short_of_closed (by simp [Machine.IsOpen])
  | commit =>
    rcases p.tryToCommit_cases s with heq | ⟨_, _, -, -, -, -, heq⟩
    · rwa [heq]
    · rw [heq]
      exact short_of_closed (by simp [Machine.IsOpen, Step.enter])

theorem Rounds.short (rounds : p.Rounds s s') (h : p.Short s.machine) : p.Short s'.machine := by
  induction rounds with
  | refl => exact h
  | tail _ round ih => exact round.short ih

end Host

/-! ### Calls and runs -/

namespace Course

variable {p : Host σ} {c c' : Course σ}

/-- No majority blames the proposer before the epoch is left, and nobody has voted before the
start. -/
structure Unblamed (p : Host σ) (m : Machine) : Prop where
  blame : m.phase = .inactive ∨ m.phase = .ready ∨ m.phase = .locked →
    m.blame.hasQuorum p.count = false
  votes : m.phase = .inactive → m.votes = .empty

theorem Change.unblamed (change : Change p c c') (h : Unblamed p c.machine) :
    Unblamed p c'.machine := by
  cases change with
  | call => exact h
  | calm alike =>
    refine ⟨?_, ?_⟩
    · rw [alike.phase, alike.blame]
      exact h.blame
    · rw [alike.phase, alike.votes]
      exact h.votes
  | opens phase => exact ⟨fun _ => h.blame (.inl phase), by simp [Machine.opened]⟩
  | count counting =>
    refine ⟨h.blame, fun hp => ?_⟩
    have hp : c.machine.phase = .inactive := hp
    rcases counting.phase with hphase | hphase | hphase <;> simp [hphase] at hp
  | expose counting =>
    refine ⟨fun hp => ?_, fun hp => ?_⟩ <;>
      · simp only [Machine.exposed, Machine.count] at hp
        rcases counting.phase with hphase | hphase | hphase <;>
          simp [hphase, Phase.exposed] at hp
  | lock phase _ _ locks =>
    subst locks
    exact ⟨fun _ => h.blame (.inr (.inl phase)), by simp⟩
  | decide => exact ⟨by simp, by simp⟩
  | commit _ ends =>
    subst ends
    exact ⟨by simp, by simp⟩
  | blame short => exact ⟨fun _ => short, h.votes⟩
  | resign resigns =>
    constructor <;> rcases resigns.phase with ⟨-, hphase⟩ | hphase <;> simp [hphase]

theorem Changes.unblamed (changes : Changes p c c') (h : Unblamed p c.machine) :
    Unblamed p c'.machine := by
  induction changes with
  | refl => exact h
  | tail _ change ih => exact change.unblamed ih

theorem unblamed_create (e : Epoch) (policy : Policy) (pendingLimit : Nat) :
    Unblamed p (create (σ := σ) e policy pendingLimit).machine :=
  ⟨fun _ => by simp [create, Machine.create, Certificate.hasQuorum, Certificate.count,
    Certificate.silence, Roster.count, Roster.empty], fun _ => rfl⟩

theorem short_of_start {m : Machine} {w : σ} {s : Step σ} (hm : Unblamed p m) (h : p.Short m)
    {valid locked : Option Certificate} (done : p.start valid locked ⟨.start w, m⟩ = .ok s) :
    p.Short s.machine := by
  by_cases phase : m.phase = .inactive
  · have hopened : p.Short (m.opened valid locked) := by
      intro _ d hd
      have hnone : d ∈ Votes.empty.toList := hm.votes phase ▸ hd
      cases hnone
    rcases Host.start_cases (s := ⟨.start w, m⟩) phase done with ⟨-, rfl⟩ | ⟨b, begun, hrest⟩
    · exact hopened
    · have hbegun : p.Short b.machine := hopened.alike (Host.begin_calm begun).alike
      refine foldlM_keeps (motive := fun t : Step σ => p.Short t.machine) ?_ hrest
        (hbegun.alike .aside)
      exact fun t x t' _ ht hround => (Host.receive_rounds hround).short ht
  · unfold Host.start at done
    rw [if_pos (by simp [Machine.started, phase])] at done
    cases done
    exact h

theorem short_of_expire {s s' : Step σ} (h : p.Short s.machine) {t : Timeout}
    (done : p.expire t s = .ok s') : p.Short s'.machine := by
  rcases Host.expire_cases done with rfl | ⟨-, -, done⟩
  · exact h
  have hclock : p.Short { s.machine with timers := s.machine.timers.expire t.kind } :=
    h.alike .aside
  rcases Host.onTimeout_cases done with
    rfl | ⟨-, -, rfl⟩ | ⟨-, phase, rfl⟩ | ⟨-, rfl⟩ | ⟨-, done⟩
  · exact hclock
  · exact hclock
  · have hlocked : s.machine.phase = .locked := phase
    obtain ⟨phase', decision, heq, hphase⟩ := p.decideLocked_eq
      { s with machine.timers := s.machine.timers.expire t.kind }
    rw [heq]
    refine Host.short_of_closed ?_
    -- a locked epoch is not open, whether it decides or not
    rcases hphase with rfl | rfl | rfl
    · simp [Machine.IsOpen, hlocked]
    · simp [Machine.IsOpen]
    · simp [Machine.IsOpen]
  · exact Host.short_of_closed (by simp [Machine.IsOpen, Step.enter])
  · rw [Host.proposeSplit_machine done]
    exact hclock

/-- No call leaves an open epoch with a majority of votes. -/
theorem take_short (hm : Unblamed p c.machine) (h : p.Short c.machine) {call : Call} {w : σ}
    (taken : c.take p call w = .ok c') : p.Short c'.machine := by
  obtain ⟨s, hs, rfl⟩ := take_eq_ok.mp taken
  cases call with
  | start valid locked => exact short_of_start hm h hs
  | receive x => exact (Host.receive_rounds hs).short h
  | expire t => exact short_of_expire h hs
  | stop =>
    cases hs
    exact Host.short_of_closed (by simp [Machine.IsOpen, within, Machine.stop])

/-- **No run leaves an open epoch with a majority of votes**, or one that may still lock or decide
with a majority of blame. -/
theorem run_short {policy : Policy} {e : Epoch} {pendingLimit : Nat} {calls : List (Call × σ)}
    (ran : (create e policy pendingLimit).run p calls = .ok c) :
    p.Short c.machine ∧ Unblamed p c.machine := by
  have hcreated : p.Short (create (σ := σ) e policy pendingLimit).machine :=
    Host.short_of_closed (by simp [Machine.IsOpen, create, Machine.create])
  refine (run_keeps (motive := fun d => p.Short d.machine ∧ Unblamed p d.machine) ?_
    (sound_create e policy pendingLimit) ran
      ⟨hcreated, unblamed_create e policy pendingLimit⟩).1
  rintro d x d' - hsound ⟨hshort, hunblamed⟩ taken
  exact ⟨take_short hunblamed hshort taken, (take_changes hsound taken).1.unblamed hunblamed⟩

end Course

end EpochConsensus
