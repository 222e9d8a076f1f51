import EpochConsensus.Proofs.Epoch.Rounds

/-! # How an epoch asks for timeouts

Only a request changes a timer in the middle of a call.  It is made when the epoch leaves its first
phase to wait for something, and again with every message until the host takes it on; all else that
a call does asks for nothing (`Step.Mute`).  A `Host.Booking` is one or the other, and a message is
a path of bookings (`Host.receive_bookings`) in the course of which whatever was refused is
requested again (`Host.request_mem_retryRefused`).
-/
namespace EpochConsensus

variable {σ : Type}

/-- A timer that was idle or refused is so still once a timeout was delivered. -/
theorem Timers.get_expire (t : Timers) (kind l : TimeoutKind) :
    (t.get l = .idle → (t.expire kind).get l = .idle) ∧
      ((t.expire kind).get l = .refused ↔ t.get l = .refused) := by
  unfold expire
  split
  · rename_i accepted
    rw [get_set]
    split
    · rename_i hl
      subst hl
      simp [accepted]
    · exact ⟨id, .rfl⟩
  · exact ⟨id, .rfl⟩

def Effect.isRequest : Effect → Bool
  | request _ _ => true
  | _ => false

/-- Nothing is requested. -/
structure Step.Mute (s s' : Step σ) : Prop where
  epoch : s'.machine.epoch = s.machine.epoch
  timers : s'.machine.timers = s.machine.timers
  moments : ∃ xs, s'.moments.toList = s.moments.toList ++ xs ∧
    ∀ x ∈ xs, x.effect.isRequest = false

namespace Step.Mute

variable {s s' s'' : Step σ}

theorem refl (s : Step σ) : s.Mute s := ⟨rfl, rfl, [], by simp, by simp⟩

theorem trans (h : s.Mute s') (h' : s'.Mute s'') : s.Mute s'' := by
  obtain ⟨xs, hxs, hplain⟩ := h.moments
  obtain ⟨ys, hys, hplain'⟩ := h'.moments
  refine ⟨h'.epoch.trans h.epoch, h'.timers.trans h.timers, xs ++ ys, ?_, ?_⟩
  · rw [hys, hxs, List.append_assoc]
  · exact fun x hx => (List.mem_append.mp hx).elim (hplain x) (hplain' x)

/-- A change of neither the timers nor the record. -/
theorem of_timers {m : Machine} (epoch : m.epoch = s.machine.epoch)
    (timers : m.timers = s.machine.timers) : s.Mute { s with machine := m } :=
  ⟨epoch, timers, [], by simp, by simp⟩

theorem emit (h : s.Mute s') {e : Effect} (he : e.isRequest = false) : s.Mute (s'.emit e) :=
  h.trans ⟨rfl, rfl, [_], Array.toList_push, by simpa using he⟩

/-- Any other question to the host. -/
theorem ask {world : σ} {e : Effect} (h : e.isRequest = false) :
    s.Mute { s with toContext := { s.toContext with world }.emit e } :=
  ⟨rfl, rfl, [_], Array.toList_push, by simpa using h⟩

theorem forwardAll (h : s.Mute s') (bs : List Ballot) : s.Mute (s'.forwardAll bs) := by
  induction bs generalizing s' with
  | nil => exact h
  | cons b bs ih => exact ih (h.emit rfl)

end Step.Mute

namespace Host

section
variable (p : Host σ)

/-- What a call on a started epoch does about its timeouts. -/
inductive Booking : Step σ → Step σ → Prop
  /-- Nothing, and the epoch does not come to wait. -/
  | mute {s s' : Step σ} (mute : s.Mute s') (phase : s'.machine.phase = s.machine.phase ∨
      s'.machine.phase = .commit ∨ s'.machine.phase = .finished) : Booking s s'
  /-- What was refused is requested again. -/
  | again {s : Step σ} {kind : TimeoutKind} (refused : s.machine.timers.get kind = .refused) :
      Booking s (p.schedule kind s)
  /-- The epoch has left its first phase and waits. -/
  | leave {s t : Step σ} {kind : TimeoutKind} (ready : s.machine.phase = .ready) (mute : s.Mute t)
      (waits : kind = .equivocation ∧ t.machine.phase = .locked ∨
        kind = .quitEpoch ∧ t.machine.phase = .epochChange) : Booking s (p.schedule kind t)

/-- Any number of them. -/
abbrev Bookings : Step σ → Step σ → Prop := Relation.ReflTransGen p.Booking

end

variable {p : Host σ} {s s' t : Step σ}

/-! ### What a request changes -/

/-- A request that is not yet taken on is made, and its answer is noted down. -/
theorem schedule_of_unaccepted (kind : TimeoutKind)
    (unaccepted : s.machine.timers.get kind ≠ .accepted) : ∃ accepted world,
    p.schedule kind s = { s with
      toContext := { s.toContext with world }.emit
        (.request ⟨s.machine.epoch, kind, p.patience kind⟩ accepted)
      machine.timers := s.machine.timers.set (if accepted then .accepted else .refused) kind } := by
  unfold schedule
  rw [if_neg unaccepted]
  exact ⟨_, _, rfl⟩

/-- The record only grows. -/
theorem schedule_moments (kind : TimeoutKind) (s : Step σ) :
    ∃ xs, (p.schedule kind s).moments.toList = s.moments.toList ++ xs := by
  obtain ⟨c, timers, asked, heq⟩ := p.schedule_eq kind s
  rw [heq]
  rcases asked with rfl | ⟨t, rfl⟩
  · exact ⟨[], (List.append_nil _).symm⟩
  · exact ⟨[_], Array.toList_push⟩

theorem Booking.moments (booking : p.Booking s s') :
    ∃ xs, s'.moments.toList = s.moments.toList ++ xs := by
  cases booking with
  | mute mute =>
    obtain ⟨xs, hxs, -⟩ := mute.moments
    exact ⟨xs, hxs⟩
  | again refused => exact schedule_moments _ s
  | @leave t kind ready mute waits =>
    obtain ⟨xs, hxs, -⟩ := mute.moments
    obtain ⟨ys, hys⟩ := p.schedule_moments kind t
    exact ⟨xs ++ ys, by rw [hys, hxs, List.append_assoc]⟩

theorem Bookings.moments (bookings : p.Bookings s s') :
    ∃ xs, s'.moments.toList = s.moments.toList ++ xs := by
  induction bookings with
  | refl => exact ⟨[], (List.append_nil _).symm⟩
  | tail _ booking ih =>
    obtain ⟨xs, hxs⟩ := ih
    obtain ⟨ys, hys⟩ := booking.moments
    exact ⟨xs ++ ys, by rw [hys, hxs, List.append_assoc]⟩

theorem Booking.epoch (booking : p.Booking s s') : s'.machine.epoch = s.machine.epoch := by
  cases booking with
  | mute mute => exact mute.epoch
  | again refused => exact (schedule_calm _ _).alike.epoch
  | leave ready mute => exact (schedule_calm _ _).alike.epoch.trans mute.epoch

theorem Bookings.epoch (bookings : p.Bookings s s') : s'.machine.epoch = s.machine.epoch := by
  induction bookings with
  | refl => rfl
  | tail _ booking ih => exact booking.epoch.trans ih

/-! ### Handlers -/

theorem Booking.still (mute : s.Mute s') (phase : s'.machine.phase = s.machine.phase) :
    p.Booking s s' := .mute mute (.inl phase)

theorem tryToCommit_booking (s : Step σ) : p.Booking s (p.tryToCommit s) := by
  rcases p.tryToCommit_cases s with heq | ⟨_, _, -, -, -, -, heq⟩
  · rw [heq]
    exact .still (.refl s) rfl
  · rw [heq]
    refine .mute (.emit ?_ rfl) (.inr (.inr rfl))
    exact .of_timers rfl rfl

theorem decideLocked_bookings (s : Step σ) : p.Bookings s (p.decideLocked s) := by
  rcases p.decideLocked_cases s with heq | ⟨c, id, -, -, heq⟩
  · rw [heq]
  · have hdecided : p.Booking s (decided c id s) :=
      .mute (.of_timers rfl rfl) (.inr (.inl rfl))
    rw [heq]
    exact .head hdecided (.single (tryToCommit_booking _))

theorem onBlockCertificate_bookings (c : Certificate) (s : Step σ) :
    p.Bookings s (p.onBlockCertificate c s) := by
  unfold onBlockCertificate
  cases hphase : s.machine.phase with
  | ready =>
    let locked : Step σ := { s with machine := { s.machine with
      valid := some c, phase := .locked, locked := some c } }
    have hlock : p.Booking s (p.schedule .equivocation locked) :=
      .leave hphase (.of_timers rfl rfl) (.inl ⟨rfl, rfl⟩)
    exact .head hlock (.single (.still (.emit (.emit (.refl _) rfl) rfl) rfl))
  | epochChange =>
    refine .single (.mute (.emit (.emit ?_ rfl) rfl) (.inr (.inr rfl)))
    exact .of_timers rfl rfl
  | inactive =>
    refine .single (.still (.emit (.emit ?_ rfl) rfl) rfl)
    exact .of_timers rfl rfl
  | locked => exact .refl
  | commit => exact .refl
  | finished => exact .refl

theorem exposeEquivocation_bookings (proposer : ProcessId) (s : Step σ) :
    p.Bookings s (p.exposeEquivocation proposer s) := by
  unfold exposeEquivocation
  split
  · exact .refl
  by_cases hready : s.machine.phase = .ready
  · let left : Step σ := { s with machine := { s.machine with
      equivocation := true, phase := s.machine.phase.exposed } }
    have hleave : p.Booking s (p.schedule .quitEpoch left) :=
      .leave hready (.of_timers rfl rfl) (.inr ⟨rfl, by simp [left, hready, Phase.exposed]⟩)
    simp only [if_pos hready]
    exact .head hleave
      (.single (.still (.forwardAll (.refl _) _) (by rw [Step.forwardAll_machine])))
  · simp only [if_neg hready]
    refine .single (.mute (.forwardAll ?_ _) ?_)
    · exact .of_timers rfl rfl
    rw [Step.forwardAll_machine]
    cases hphase : s.machine.phase <;> simp [hphase, Phase.exposed] at hready ⊢

theorem ite_bookings {c : Prop} [Decidable c] (h : p.Bookings s s') :
    p.Bookings s (if c then s' else s) := by
  split
  · exact h
  · exact .refl

theorem onCounted_bookings (proposer : ProcessId) (signed : Bool) (c : Certificate) (s : Step σ) :
    p.Bookings s (p.onCounted proposer signed c s) := by
  have hput : p.Booking s { s with machine.votes := s.machine.votes.put c } :=
    .still (.of_timers rfl rfl) rfl
  exact .head hput (((ite_bookings (exposeEquivocation_bookings proposer _)).trans
    (ite_bookings (onBlockCertificate_bookings c _))).trans
      (ite_bookings (decideLocked_bookings _)))

theorem onVote_bookings {v : Vote} (h : p.onVote v s = .ok s') : p.Bookings s s' := by
  rcases onVote_cases h with rfl | ⟨proposer, signed, -, -, -, -, rfl⟩
  · exact .refl
  · exact onCounted_bookings _ _ _ s

theorem onSilence_bookings (b : Silence) (s : Step σ) : p.Bookings s (p.onSilence b s) := by
  rcases p.onSilence_cases b s with heq | ⟨-, phase, heq⟩
  · rw [heq]
  rw [heq]
  have hblamed : p.Booking s (blamed b s) := .still (.of_timers rfl rfl) rfl
  refine .head hblamed (ite_bookings ?_)
  rcases phase with phase | phase
  · rw [onSilenceCertificate_ready (s := blamed b s) phase]
    refine .single (.leave phase (.emit ?_ rfl) (.inr ⟨rfl, rfl⟩))
    exact .of_timers rfl rfl
  · rw [onSilenceCertificate_locked (s := blamed b s) phase]
    exact .single (.mute (.of_timers rfl rfl) (.inr (.inr rfl)))

theorem voteFor_bookings {proposal : Proposal} (h : p.voteFor proposal s = .ok s') :
    p.Bookings s s' := by
  unfold voteFor at h
  simp only [pure, Except.pure] at h
  obtain ⟨t, hvote, h⟩ := bind_eq_ok.mp h
  cases h
  have hcast : p.Booking t (p.cast proposal t) :=
    .still (.trans (.emit (.emit (.refl t) rfl) rfl) (.of_timers rfl rfl)) rfl
  exact .head (.still (.emit (.refl s) rfl) rfl) ((onVote_bookings hvote).tail hcast)

theorem tryToVote_bookings (h : p.tryToVote s = .ok s') : p.Bookings s s' := by
  rcases tryToVote_cases h with rfl | ⟨proposal, -, -, h⟩
  · exact .refl
  · exact voteFor_bookings h

theorem voteAnyway_bookings {proposal : Proposal} (h : p.voteAnyway proposal s = .ok s') :
    p.Bookings s s' := by
  unfold voteAnyway at h
  simp only [pure, Except.pure] at h
  obtain ⟨t, hvote, h⟩ := bind_eq_ok.mp h
  split at h
  · cases h
    exact (voteFor_bookings hvote).tail (.still (.of_timers rfl rfl) rfl)
  · cases h
    exact voteFor_bookings hvote

theorem store_mute {b : Block} {added : Bool} {c : Context σ}
    (h : p.store s.toContext b = .ok (added, c)) : s.Mute { s with toContext := c } := by
  unfold store at h
  simp only [pure, Except.pure] at h
  obtain ⟨⟨answer, world⟩, -, h⟩ := bind_eq_ok.mp h
  cases h
  exact .ask rfl

theorem onProposal_bookings {proposal : Proposal} (h : p.onProposal proposal s = .ok s') :
    p.Bookings s s' := by
  rcases onProposal_cases h with rfl | ⟨-, -, added, c, asked, ⟨-, rfl⟩ | ⟨-, t, rfl, ht⟩⟩
  · exact .refl
  · exact .single (.still (store_mute asked) rfl)
  · obtain ⟨proposals, heq⟩ := enlist_eq s.machine proposal
    rw [heq] at ht
    have henlist : p.Booking s { s with toContext := c, machine.proposals := proposals } :=
      .still ((store_mute asked).trans (.of_timers rfl rfl)) rfl
    refine .head henlist (.tail ?_ (tryToCommit_booking t))
    rcases ht with ht | ⟨-, ht⟩
    · exact tryToVote_bookings ht
    · exact voteAnyway_bookings ht

theorem onBallot_bookings {b : Ballot} (h : p.onBallot b s = .ok s') : p.Bookings s s' := by
  cases b with
  | silence b =>
    cases h
    exact onSilence_bookings b s
  | vote v => exact onVote_bookings h

theorem retry_bookings (kinds : List TimeoutKind) (s : Step σ) : p.Bookings s (kinds.foldl
    (fun s kind => if s.machine.timers.get kind = .refused then p.schedule kind s else s) s) := by
  induction kinds generalizing s with
  | nil => exact .refl
  | cons kind kinds ih =>
    rw [List.foldl_cons]
    split
    · rename_i refused
      exact .head (.again refused) (ih _)
    · exact ih s

theorem retryRefused_bookings (s : Step σ) : p.Bookings s (p.retryRefused s) := retry_bookings _ s

theorem whileActive_bookings {handle : Step σ → Except Fault (Step σ)}
    (handled : ∀ t, handle t = .ok s' → p.Bookings t s') (h : p.whileActive handle s = .ok s') :
    p.Bookings s s' := by
  unfold whileActive at h
  split at h
  · cases h
    exact .refl
  · exact (retryRefused_bookings s).trans (handled _ h)

theorem onMessage_bookings {m : Message} (h : p.onMessage m s = .ok s') : p.Bookings s s' := by
  cases m with
  | propose proposal => exact onProposal_bookings h
  | silence b =>
    cases h
    exact onSilence_bookings b s
  | vote v => exact onVote_bookings h
  | quitEpoch c =>
    replace h : p.onQuitEpoch c s = .ok s' := h
    unfold onQuitEpoch at h
    split at h
    · cases h
      exact .refl
    · refine foldlM_keeps (motive := p.Bookings s) ?_ h .refl
      intro t b t' _ ht hround
      exact ht.trans (whileActive_bookings (fun _ => onBallot_bookings) hround)
  | certificate | probe | answer =>
    cases h
    exact .refl

/-- **A message is received as a path of bookings.** -/
theorem receive_bookings {m : Message} (h : p.receive m s = .ok s') : p.Bookings s s' := by
  unfold receive at h
  split at h
  · cases h
    obtain ⟨pending, heq, -⟩ := keep_eq m s
    rw [heq]
    exact .single (.still (.of_timers rfl rfl) rfl)
  · exact whileActive_bookings (fun _ => onMessage_bookings) h

theorem Bookings.effects (bookings : p.Bookings s s') {e : Effect} (he : e ∈ s.effects) :
    e ∈ s'.effects := by
  obtain ⟨xs, hxs⟩ := bookings.moments
  obtain ⟨x, hx, rfl⟩ := Array.mem_map.mp he
  refine Array.mem_map.mpr ⟨x, ?_, rfl⟩
  rw [← Array.mem_toList_iff, hxs]
  exact List.mem_append_left _ (Array.mem_toList_iff.mpr hx)

theorem propose_mute (h : p.propose s = .ok s') : s.Mute s' := by
  unfold propose at h
  simp only [pure, Except.pure] at h
  have hasked : s.Mute { s with toContext := (p.takeValue s.toContext).2 } := .ask rfl
  split at h
  · cases h
    exact hasked
  · obtain ⟨b, -, h⟩ := bind_eq_ok.mp h
    cases h
    exact hasked.emit rfl

theorem proposeSplit_mute (h : p.proposeSplit s = .ok s') : s.Mute s' := by
  unfold proposeSplit at h
  simp only [pure, Except.pure] at h
  have hasked : s.Mute { s with
      toContext := (p.takeValue (p.takeValue s.toContext).2).2 } :=
    (Step.Mute.ask rfl).trans (.ask rfl)
  split at h
  · simp only [bind_eq_ok] at h
    obtain ⟨a, -, b, -, h⟩ := h
    cases h
    exact (hasked.emit rfl).emit rfl
  · cases h
    exact hasked

theorem onTimeout_bookings {kind : TimeoutKind} (h : p.onTimeout kind s = .ok s') :
    p.Bookings s s' := by
  rcases onTimeout_cases h with rfl | ⟨-, -, rfl⟩ | ⟨-, -, rfl⟩ | ⟨-, rfl⟩ | ⟨-, done⟩
  · exact .refl
  · exact .single (.still (.emit (.refl s) rfl) rfl)
  · exact decideLocked_bookings s
  · refine .single (.mute (.emit ?_ rfl) (.inr (.inr rfl)))
    exact .of_timers rfl rfl
  · exact .single (.still (proposeSplit_mute done) (by rw [proposeSplit_machine done]))

/-! ### Starts -/

/-- The proposer proposes or waits for its moment, any other process waits for the proposal. -/
theorem begin_cases (h : p.begin s = .ok s') :
    (s.Mute s' ∧ s'.machine.phase = s.machine.phase ∧ p.proposer s.machine.epoch = .ok p.id) ∨
      ∃ kind, s' = p.schedule kind s ∧ (kind = .propose ∨
        kind = .epochChange ∧ p.proposer s.machine.epoch = .ok p.id) := by
  unfold begin at h
  simp only [pure, Except.pure] at h
  obtain ⟨q, turn, h⟩ := bind_eq_ok.mp h
  split at h
  · rename_i hself
    subst hself
    unfold lead at h
    simp only [pure, Except.pure] at h
    split at h
    · exact .inl ⟨propose_mute h, by rw [propose_machine h], turn⟩
    · obtain ⟨follows, -, h⟩ := bind_eq_ok.mp h
      split at h
      · exact .inl ⟨proposeSplit_mute h, by rw [proposeSplit_machine h], turn⟩
      · cases h
        exact .inr ⟨.epochChange, rfl, .inr ⟨rfl, turn⟩⟩
  · cases h
    exact .inr ⟨.propose, rfl, .inl rfl⟩

/-- No start makes an epoch another one. -/
theorem start_epoch {valid locked : Option Certificate} (h : p.start valid locked s = .ok s') :
    s'.machine.epoch = s.machine.epoch := by
  by_cases idle : s.machine.phase = .inactive
  · rcases start_cases idle h with ⟨-, rfl⟩ | ⟨b, begun, hrest⟩
    · rfl
    · exact foldlM_keeps (motive := fun t : Step σ => t.machine.epoch = s.machine.epoch)
        (fun t m t' _ ht hround => (receive_bookings hround).epoch.trans ht) hrest
        (begin_calm begun).alike.epoch
  · unfold start at h
    rw [if_pos (by simp [Machine.started, idle])] at h
    cases h
    rfl

/-! ### Requests that were refused -/

/-- **Whatever was refused is requested again.** -/
theorem request_mem_retryRefused {kind : TimeoutKind}
    (refused : s.machine.timers.get kind = .refused) :
    ∃ accepted, Effect.request ⟨s.machine.epoch, kind, p.patience kind⟩ accepted ∈
      (p.retryRefused s).effects := by
  have hall : kind ∈ TimeoutKind.all := kind.mem_all
  unfold retryRefused
  -- by induction on the kinds still to go through, of which this one is
  generalize TimeoutKind.all = kinds at hall
  induction kinds generalizing s with
  | nil => cases hall
  | cons k kinds ih =>
    rw [List.foldl_cons]
    by_cases hk : k = kind
    · subst hk
      rw [if_pos refused]
      obtain ⟨accepted, world, heq⟩ :=
        schedule_of_unaccepted (p := p) (s := s) k (by simp [refused])
      refine ⟨accepted, (retry_bookings kinds _).effects ?_⟩
      rw [heq]
      simp [Context.effects, Context.emit, Context.record]
    · have hrest : kind ∈ kinds := (List.mem_cons.mp hall).resolve_left (Ne.symm hk)
      split
      · rename_i hrefused
        obtain ⟨accepted, world, heq⟩ :=
          schedule_of_unaccepted (p := p) (s := s) k (by simp [hrefused])
        rw [heq]
        exact ih (by simpa [Timers.get_set, Ne.symm hk] using refused) hrest
      · exact ih refused hrest

end Host

end EpochConsensus
