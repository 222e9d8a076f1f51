import EpochConsensus.Proofs.Epoch.Bookings
import EpochConsensus.Proofs.Epoch.QuitEpoch

/-! # A message that comes twice

Whatever a message has to say to an epoch, it says the first time.  A ballot is counted, or it comes
too late; either way the epoch knows it from then on (`Host.knows_onBallot`), and so it does with
every ballot of a certificate.  A proposal goes on the list unless it is of no use or the store
refuses its block.  A second copy then changes nothing and comes to nothing, except that a block
that was refused is offered to the store once more (`Host.receive_repeats`).

This takes a host that never refuses a timeout, as a refused one is requested again with every
message.
-/
namespace EpochConsensus

variable {σ : Type}

/-! ### Requests -/

/-- No request is marked as refused. -/
def Timers.Unrefused (t : Timers) : Prop := ∀ kind, t.get kind ≠ .refused

namespace Host

/-- The host takes every timeout on. -/
def Obliging (p : Host σ) : Prop := ∀ t w, (p.accepts t w).1 = true

variable {p : Host σ} {heard : Endorsement → Prop} {q : ProcessId} {s s' : Step σ}

theorem Obliging.schedule (h : p.Obliging) (unrefused : s.machine.timers.Unrefused)
    (kind : TimeoutKind) : (p.schedule kind s).machine.timers.Unrefused := by
  unfold Host.schedule
  split
  · exact unrefused
  · intro l
    have haccepted :
        (p.request s.toContext ⟨s.machine.epoch, kind, p.patience kind⟩).1 = true := h _ _
    simp only [haccepted, if_true, Timers.get_set]
    split
    · decide
    · exact unrefused l

theorem Obliging.booking (h : p.Obliging) (unrefused : s.machine.timers.Unrefused)
    (booking : p.Booking s s') : s'.machine.timers.Unrefused := by
  cases booking with
  | mute mute => exact mute.timers ▸ unrefused
  | again refused => exact absurd refused (unrefused _)
  | leave ready mute => exact h.schedule (mute.timers ▸ unrefused) _

theorem Obliging.bookings (h : p.Obliging) (unrefused : s.machine.timers.Unrefused)
    (bookings : p.Bookings s s') : s'.machine.timers.Unrefused := by
  induction bookings with
  | refl => exact unrefused
  | tail _ booking ih => exact h.booking ih booking

/-- Such a host is never asked again, whatever is received, -/
theorem Obliging.receive (h : p.Obliging) (unrefused : s.machine.timers.Unrefused) {x : Message}
    (done : p.receive x s = .ok s') : s'.machine.timers.Unrefused :=
  h.bookings unrefused (receive_bookings done)

/-- or whichever timeout is delivered, -/
theorem Obliging.expire (h : p.Obliging) (unrefused : s.machine.timers.Unrefused) {t : Timeout}
    (done : p.expire t s = .ok s') : s'.machine.timers.Unrefused := by
  rcases expire_cases done with rfl | ⟨-, -, done⟩
  · exact unrefused
  · refine h.bookings (fun kind => ?_) (onTimeout_bookings done)
    exact fun refused => unrefused kind ((s.machine.timers.get_expire t.kind kind).2.mp refused)

/-- or when the epoch starts. -/
theorem Obliging.start (h : p.Obliging) (unrefused : s.machine.timers.Unrefused)
    {valid locked : Option Certificate} (done : p.start valid locked s = .ok s') :
    s'.machine.timers.Unrefused := by
  by_cases idle : s.machine.phase = .inactive
  · rcases start_cases idle done with ⟨-, rfl⟩ | ⟨b, begun, hrest⟩
    · exact unrefused
    · have hbegun : b.machine.timers.Unrefused := by
        rcases begin_cases begun with ⟨mute, -⟩ | ⟨kind, rfl, -⟩
        · exact mute.timers ▸ unrefused
        · exact h.schedule (s := { s with machine := s.machine.opened valid locked }) unrefused kind
      exact foldlM_keeps (motive := fun t : Step σ => t.machine.timers.Unrefused)
        (fun t m t' _ ht hround => h.receive ht hround) hrest hbegun
  · unfold Host.start at done
    rw [if_pos (by simp [Machine.started, idle])] at done
    cases done
    exact unrefused

theorem retryRefused_of_unrefused (h : s.machine.timers.Unrefused) : p.retryRefused s = s := by
  simp [retryRefused, TimeoutKind.all, h .propose, h .equivocation, h .quitEpoch, h .epochChange]

end Host

/-! ### Known ballots -/

/-- Whoever has signed the certificate with a vote's second signature on it. -/
theorem Certificate.signedBy_addCarried_eq (c : Certificate) (q : ProcessId) (v : Vote)
    (process : ProcessId) : (c.addCarried q v).signedBy process =
      (decide (process = q ∧ v.cosigner = q ∧ v.cosignature.isSome = true) ||
        c.signedBy process) := by
  unfold addCarried
  cases v.cosignature with
  | none => simp
  | some signature =>
    by_cases hq : v.cosigner = q <;> simp [hq, signedBy_add]

/-- The epoch has no more use for a ballot: it is counted, or it comes too late. -/
def Machine.Knows (m : Machine) (q : ProcessId) : Ballot → Prop
  | .silence b => ¬ (m.phase = .ready ∨ m.phase = .locked) ∨ m.blame.signedBy b.sender = true
  | .vote v => m.phase = .commit ∨
      (m.votes.get m.epoch v.height v.blockId).signedBy v.sender = true ∧
        (v.cosigner = q → v.cosignature.isSome = true →
          (m.votes.get m.epoch v.height v.blockId).signedBy q = true)

theorem Machine.Knows.alike {m m' : Machine} {q : ProcessId} {b : Ballot} (h : m.Knows q b)
    (alike : m.Alike m') : m'.Knows q b := by
  cases b <;> simpa only [Knows, alike.phase, alike.blame, alike.votes, alike.epoch] using h

namespace Host

variable {p : Host σ} {heard : Endorsement → Prop} {q : ProcessId} {s s' : Step σ}

/-- A ballot that is known changes nothing. -/
theorem onBallot_of_knows (turn : p.proposer s.machine.epoch = .ok q) {b : Ballot}
    (known : s.machine.Knows q b) : p.onBallot b s = .ok s := by
  cases b with
  | silence b =>
    show Except.ok (p.onSilence b s) = .ok s
    unfold onSilence
    rcases known with late | counted
    · rw [if_pos (by simpa [not_or] using .inl (not_or.mp late))]
    · simp [counted]
  | vote v =>
    show p.onVote v s = .ok s
    unfold onVote
    split
    · rfl
    · rename_i hnew
      obtain ⟨hsender, hcarried⟩ := known.resolve_left fun late => hnew (by simp [late])
      -- the second signature is none of the proposer's that was not counted
      have hnone : ((((s.machine.votes.get s.machine.epoch v.height v.blockId).addCarried q
          v).signedBy q && !(s.machine.votes.get s.machine.epoch v.height v.blockId).signedBy q) :
            Bool) = false := by
        rw [Certificate.signedBy_addCarried_eq]
        by_cases hq : v.cosigner = q ∧ v.cosignature.isSome = true
        · simp [hcarried hq.1 hq.2]
        · simp [hq]
      simp only [turn, bind, Except.bind, pure, Except.pure, hnone,
        Certificate.signedBy_addCarried hsender, Bool.not_false, Bool.and_self, if_true]

/-- A vote that is not known is counted. -/
theorem onVote_of_new (turn : p.proposer s.machine.epoch = .ok q) {v : Vote}
    (current : v.epoch = s.machine.epoch) (new : ¬ s.machine.Knows q (.vote v)) :
    ∃ signed, p.onVote v s = .ok (p.onCounted q signed (s.machine.counted q v) s) := by
  simp only [Machine.Knows, not_or] at new
  obtain ⟨hearly, hnew⟩ := new
  unfold onVote
  rw [if_neg (by simp [hearly, current]), turn]
  simp only [bind, Except.bind, pure, Except.pure]
  split
  · rename_i hknown
    refine absurd ?_ hnew
    simp only [Certificate.signedBy_addCarried_eq, Bool.and_eq_true, Bool.or_eq_true,
      decide_eq_true_eq, Bool.not_eq_true', Bool.and_eq_false_iff, Bool.or_eq_false_iff,
      Bool.not_eq_false'] at hknown
    obtain ⟨hsender, hcarried⟩ := hknown
    have hproposer : v.cosigner = q → v.cosignature.isSome = true →
        (s.machine.votes.get s.machine.epoch v.height v.blockId).signedBy q = true := by
      intro hq hsome
      rcases hcarried with ⟨hnone, -⟩ | hbefore
      · simp [hq, hsome] at hnone
      · exact hbefore
    refine ⟨?_, hproposer⟩
    rcases hsender with ⟨rfl, hq, hsome⟩ | hbefore
    · exact hproposer hq hsome
    · exact hbefore
  · exact ⟨_, rfl⟩

/-- A vote that is counted is known, -/
theorem knows_onCounted (hs : p.Sound heard s.machine) {v : Vote}
    (current : v.epoch = s.machine.epoch) (signed : Bool) :
    (p.onCounted q signed (s.machine.counted q v) s).machine.Knows q (.vote v) := by
  refine .inr ?_
  rw [onCounted_votes, (quiet_onCounted q signed _ s).epoch, get_count hs current]
  refine ⟨signedBy_counted_sender _ _ _, fun hq hsome => ?_⟩
  unfold Machine.counted
  rw [Certificate.signedBy_add, Certificate.signedBy_addCarried_eq]
  simp [hq, hsome]

/-- and so are those for the same block that were known before. -/
theorem knows_onCounted_of_knows (hs : p.Sound heard s.machine) {v u : Vote}
    (current : u.epoch = s.machine.epoch) (active : s.machine.phase ≠ .commit)
    (same : v.statement = u.statement) (known : s.machine.Knows q (.vote v)) (signed : Bool) :
    (p.onCounted q signed (s.machine.counted q u) s).machine.Knows q (.vote v) := by
  have hblock : Subject.block v.height v.blockId = .block u.height u.blockId :=
    congrArg Statement.subject same
  obtain ⟨hheight, hid⟩ := Subject.block.inj hblock
  obtain ⟨hsender, hcarried⟩ := known.resolve_left active
  rw [hheight, hid] at hsender hcarried
  refine .inr ?_
  rw [onCounted_votes, (quiet_onCounted q signed _ s).epoch, hheight, hid, get_count hs current]
  exact ⟨signedBy_counted hsender q, fun hq hsome => signedBy_counted (hcarried hq hsome) q⟩

theorem knows_onVote (turn : p.proposer s.machine.epoch = .ok q) (hs : p.Sound heard s.machine)
    {v u : Vote} (current : u.epoch = s.machine.epoch) (same : v.statement = u.statement)
    (known : v = u ∨ s.machine.Knows q (.vote v)) (received : p.onVote u s = .ok s') :
    s'.machine.Knows q (.vote v) := by
  by_cases hu : s.machine.Knows q (.vote u)
  · have hsame : p.onVote u s = .ok s := onBallot_of_knows turn hu
    rw [hsame] at received
    cases received
    exact known.elim (fun heq => heq ▸ hu) fun h => h
  · obtain ⟨signed, hcounted⟩ := onVote_of_new turn current hu
    rw [hcounted] at received
    cases received
    rcases known with rfl | known
    · exact knows_onCounted hs current signed
    · exact knows_onCounted_of_knows hs current (fun late => hu (.inl late)) same known signed

theorem knows_onSilence (turn : p.proposer s.machine.epoch = .ok q) {b a : Silence}
    (current : a.epoch = s.machine.epoch) (known : b = a ∨ s.machine.Knows q (.silence b)) :
    (p.onSilence a s).machine.Knows q (.silence b) := by
  by_cases ha : s.machine.Knows q (.silence a)
  · have hsame : p.onSilence a s = s := Except.ok.inj (onBallot_of_knows turn ha)
    rw [hsame]
    exact known.elim (fun heq => heq ▸ ha) fun h => h
  · obtain ⟨hlate, hnew⟩ := not_or.mp ha
    have hphase := Decidable.not_not.mp hlate
    rw [onSilence_of_current current hphase, if_neg hnew]
    split
    · -- blame of a majority ends the phases in which blame is counted
      refine .inl ?_
      rw [onSilenceCertificate_phase (s := blamed a s) hphase]
      rcases hphase with hp | hp <;> simp [blamed, hp, Phase.exposed]
    · refine .inr ?_
      show (s.machine.blame.add a.sender a.signature).signedBy b.sender = true
      rw [Certificate.signedBy_add]
      rcases known with rfl | known
      · simp
      · rw [known.resolve_left hlate, Bool.or_true]

/-- **A ballot that is received is known from then on**, and so are those on the same statement that
were known before. -/
theorem knows_onBallot (turn : p.proposer s.machine.epoch = .ok q) (hs : p.Sound heard s.machine)
    {b a : Ballot} (current : a.toMessage.epoch? = some s.machine.epoch)
    (same : b.toMessage.statement? = a.toMessage.statement?) (known : b = a ∨ s.machine.Knows q b)
    (received : p.onBallot a s = .ok s') : s'.machine.Knows q b := by
  cases a with
  | silence a =>
    cases received
    cases b with
    | silence b =>
      refine knows_onSilence turn (Option.some.inj current) (known.imp_left ?_)
      exact Ballot.silence.inj
    | vote v => cases congrArg Statement.subject (Option.some.inj same)
  | vote u =>
    cases b with
    | silence b => cases congrArg Statement.subject (Option.some.inj same)
    | vote v =>
      refine knows_onVote turn hs (Option.some.inj current) (Option.some.inj same) ?_ received
      exact known.imp_left Ballot.vote.inj

/-! ### Certificates -/

/-- The ballots of a certificate are on its statement. -/
theorem statement_ballot (c : Certificate) (x : ProcessId × Signature) :
    (c.ballot x.1 x.2).toMessage.statement? = some c.statement := by
  obtain ⟨⟨e, subject⟩, signatures⟩ := c
  cases subject <;> rfl

theorem epoch_ballot (c : Certificate) (x : ProcessId × Signature) :
    (c.ballot x.1 x.2).toMessage.epoch? = some c.epoch := by
  obtain ⟨⟨e, subject⟩, signatures⟩ := c
  cases subject <;> rfl

/-- The epoch has ended, or it knows all of these ballots of the certificate. -/
def Took (q : ProcessId) (c : Certificate) (done : List (ProcessId × Signature)) (m : Machine) :
    Prop := m.phase = .finished ∨ ∀ x ∈ done, m.Knows q (c.ballot x.1 x.2)

/-- One more ballot is known once it is received. -/
theorem Taking.knows {c : Certificate} {done : List (ProcessId × Signature)}
    {x : ProcessId × Signature} (turn : p.proposer c.epoch = .ok q)
    (h : p.Taking c.epoch (Took q c done) s)
    (received : p.whileActive (p.onBallot (c.ballot x.1 x.2)) s = .ok s') :
    Took q c (done ++ [x]) s'.machine := by
  by_cases ended : s.machine.phase = .finished
  · unfold whileActive at received
    rw [if_pos (by simp [ended])] at received
    cases received
    exact .inl ended
  rw [whileActive_eq ended h.loud] at received
  have halike : s.machine.Alike (p.retryRefused s).machine := (retryRefused_calm s).alike
  have hepoch : (p.retryRefused s).machine.epoch = c.epoch := halike.epoch.trans h.epoch
  have hknown := h.stage.resolve_left ended
  refine .inr fun y hy => ?_
  refine knows_onBallot (hepoch ▸ turn) (running_retryRefused h.running).sound
    (hepoch ▸ epoch_ballot c x) ((statement_ballot c y).trans (statement_ballot c x).symm) ?_
    received
  rcases List.mem_append.mp hy with hy | hy
  · exact .inr ((hknown y hy).alike halike)
  · rw [List.mem_singleton.mp hy]
    exact .inl rfl

/-! ### Proposals -/

theorem contains_enlist {m : Machine} {proposal : Proposal} (current : proposal.epoch = m.epoch) :
    (m.enlist proposal).proposals.contains proposal.block.id = true := by
  unfold Machine.enlist Proposals.add
  rw [if_pos current]
  show (if _ then _ else _ : Proposals).contains proposal.block.id = true
  split
  · assumption
  · simp [Proposals.contains, Proposals.find?, List.find?_append]

theorem voteFor_proposals {proposal : Proposal} (h : p.voteFor proposal s = .ok s') :
    s'.machine.proposals = s.machine.proposals := by
  unfold voteFor at h
  obtain ⟨t, hvote, h⟩ := bind_eq_ok.mp h
  cases h
  exact (quiet_onVote hvote).proposals

theorem tryToVote_proposals (h : p.tryToVote s = .ok s') :
    s'.machine.proposals = s.machine.proposals := by
  rcases tryToVote_cases h with rfl | ⟨proposal, -, -, h⟩
  · rfl
  · exact voteFor_proposals h

theorem voteAnyway_proposals {proposal : Proposal} (h : p.voteAnyway proposal s = .ok s') :
    s'.machine.proposals = s.machine.proposals := by
  unfold voteAnyway at h
  obtain ⟨t, hvote, h⟩ := bind_eq_ok.mp h
  have hsame := voteFor_proposals hvote
  split at h <;>
    · cases h
      exact hsame

/-- **A proposal comes to nothing, or its block is refused, or it is on the list.** -/
theorem onProposal_lists {proposal : Proposal} (current : proposal.epoch = s.machine.epoch)
    (h : p.onProposal proposal s = .ok s') :
    s' = s ∨ (∃ c, p.store s.toContext proposal.block = .ok (false, c) ∧
        s' = { s with toContext := c }) ∨
      s'.machine.proposals.contains proposal.block.id = true := by
  rcases onProposal_cases h with rfl | ⟨-, -, added, c, asked, ⟨rfl, heq⟩ | ⟨-, t, rfl, ht⟩⟩
  · exact .inl rfl
  · exact .inr (.inl ⟨c, asked, heq⟩)
  · refine .inr (.inr ?_)
    have hlisted : t.machine.proposals = (s.machine.enlist proposal).proposals :=
      ht.elim tryToVote_proposals fun ⟨_, ht⟩ => voteAnyway_proposals ht
    rw [(quiet_tryToCommit t).proposals, hlisted]
    exact contains_enlist current

/-! ### Messages -/

/-- The message changes nothing and comes to nothing, except that the store may refuse a block. -/
def Idle (p : Host σ) (x : Message) (m : Machine) (w : σ) : Prop :=
  ∃ c : Context σ, p.receive x ⟨.start w, m⟩ = .ok ⟨c, m⟩ ∧ c.world = w ∧
    ∀ e ∈ c.effects, ∃ id, e = .addBlock id false

variable {x : Message} {m : Machine} {w : σ}

theorem idle_of_same (h : p.receive x ⟨.start w, m⟩ = .ok ⟨.start w, m⟩) : p.Idle x m w :=
  ⟨.start w, h, rfl, by simp [Context.effects, Context.start]⟩

/-- Without refused requests a message goes straight to its handler. -/
theorem receive_of_unrefused (started : s.machine.phase ≠ .inactive)
    (active : s.machine.phase ≠ .finished) (loud : s.machine.policy.isSilent = false)
    (unrefused : s.machine.timers.Unrefused) (x : Message) : p.receive x s = p.onMessage x s := by
  rw [receive_of_active started active loud, retryRefused_of_unrefused unrefused]

/-- A certificate of which every ballot is known changes nothing. -/
theorem onQuitEpoch_of_knows {c : Certificate} (turn : p.proposer s.machine.epoch = .ok q)
    (active : s.machine.phase ≠ .finished) (loud : s.machine.policy.isSilent = false)
    (unrefused : s.machine.timers.Unrefused)
    (known : ∀ x ∈ c.signatures.entries, s.machine.Knows q (c.ballot x.1 x.2)) :
    p.onQuitEpoch c s = .ok s := by
  unfold onQuitEpoch Certificate.ballots
  split
  · rfl
  rw [List.foldlM_map]
  refine foldlM_idle fun x hx => ?_
  rw [whileActive_eq active loud, retryRefused_of_unrefused unrefused]
  exact onBallot_of_knows turn (known x hx)

/-- A certificate that is received ends the epoch, or the epoch knows its ballots from then on. -/
theorem took_receive {c : Certificate} (turn : p.proposer m.epoch = .ok q)
    (hm : p.Sound (fun _ => True) m) (loud : m.policy.isSilent = false)
    (active : m.phase ≠ .inactive ∧ m.phase ≠ .finished) (current : c.epoch = m.epoch)
    (received : p.receive (.quitEpoch c) ⟨.start w, m⟩ = .ok s) :
    Took q c c.signatures.entries s.machine := by
  have htook : ∃ s, p.receive (.quitEpoch c) ⟨.start w, m⟩ = .ok s ∧
      p.Taking m.epoch (Took q c c.signatures.entries) s :=
    receive_quitEpoch turn hm loud active current (fun _ _ => .inr fun _ hx => by cases hx)
      fun done x t t' ht round => by
        rw [← current] at ht turn
        exact ht.knows turn round
  obtain ⟨s', hs', htaking⟩ := htook
  rw [received] at hs'
  cases hs'
  exact htaking.stage

/-- A proposal whose block is refused is idle. -/
theorem idle_of_refused {proposal : Proposal} {c : Context σ}
    (refuses : ∀ b w w', p.addBlock b w = .ok (false, w') → w' = w)
    (asked : p.store (.start w) proposal.block = .ok (false, c))
    (received : p.receive (.propose proposal) ⟨.start w, m⟩ = .ok ⟨c, m⟩) :
    p.Idle (.propose proposal) m w := by
  unfold store at asked
  simp only [pure, Except.pure] at asked
  obtain ⟨⟨added, w'⟩, answer, asked⟩ := bind_eq_ok.mp asked
  cases asked
  refine ⟨_, received, refuses _ _ _ answer, fun e he => ⟨proposal.block.id, ?_⟩⟩
  simpa [Context.effects, Context.emit, Context.record, Context.start] using he

/-- A handler has nothing left to do for a message that the epoch has received. -/
theorem onMessage_repeats (refuses : ∀ b w w', p.addBlock b w = .ok (false, w') → w' = w)
    (turn : p.proposer m.epoch = .ok q) (hm : p.Sound (fun _ => True) m)
    (active : m.phase ≠ .inactive ∧ m.phase ≠ .finished) (loud : m.policy.isSilent = false)
    (unrefused : m.timers.Unrefused) (current : x.epoch? = some m.epoch)
    (received : p.receive x ⟨.start w, m⟩ = .ok s) (going : s.machine.phase ≠ .finished)
    (still : s.machine.timers.Unrefused) :
    p.Idle x m w ∨ ∀ w', p.onMessage x ⟨.start w', s.machine⟩ = .ok ⟨.start w', s.machine⟩ := by
  have hmoves := receive_moves ⟨active.1, hm⟩ (fun _ _ => trivial) received
  obtain ⟨hepoch, hpolicy, -⟩ := Moves.fixed hmoves
  have hloud : s.machine.policy.isSilent = false := hpolicy ▸ loud
  have hturn : p.proposer s.machine.epoch = .ok q := hepoch ▸ turn
  have hfirst : p.onMessage x ⟨.start w, m⟩ = .ok s := by
    rw [← receive_of_unrefused (s := ⟨.start w, m⟩) active.1 active.2 loud unrefused x, received]
  cases x with
  | propose proposal =>
    rcases onProposal_lists (s := ⟨.start w, m⟩) (Option.some.inj current) hfirst with
      rfl | ⟨c, asked, rfl⟩ | listed
    · exact .inl (idle_of_same received)
    · exact .inl (idle_of_refused refuses asked received)
    · refine .inr fun w' => ?_
      show p.onProposal proposal _ = _
      unfold onProposal
      rw [if_pos listed]
      rfl
  | silence b =>
    have hknown := knows_onBallot (s := ⟨.start w, m⟩) (a := .silence b) turn hm current rfl
      (.inl rfl) hfirst
    exact .inr fun w' => onBallot_of_knows (s := ⟨.start w', s.machine⟩) hturn hknown
  | vote v =>
    have hknown := knows_onBallot (s := ⟨.start w, m⟩) (a := .vote v) turn hm current rfl
      (.inl rfl) hfirst
    exact .inr fun w' => onBallot_of_knows (s := ⟨.start w', s.machine⟩) hturn hknown
  | quitEpoch c =>
    have hknown := (took_receive turn hm loud active (Option.some.inj current)
      received).resolve_left going
    exact .inr fun w' => onQuitEpoch_of_knows (s := ⟨.start w', s.machine⟩) hturn going hloud
      still hknown
  | certificate | probe | answer =>
    cases hfirst
    exact .inl (idle_of_same received)

/-- **A second copy changes nothing.**  Unless the first one was idle, the message is idle from then
on, whatever state the host is in. -/
theorem receive_repeats (obliging : p.Obliging)
    (refuses : ∀ b w w', p.addBlock b w = .ok (false, w') → w' = w)
    (turn : p.proposer m.epoch = .ok q) (hm : p.Sound (fun _ => True) m)
    (started : m.phase ≠ .inactive) (unrefused : m.timers.Unrefused)
    (current : x.epoch? = some m.epoch) (received : p.receive x ⟨.start w, m⟩ = .ok s) :
    p.Idle x m w ∨ ∀ w', p.Idle x s.machine w' := by
  by_cases ended : m.phase = .finished
  · exact .inl (idle_of_same (receive_of_finished (s := ⟨.start w, m⟩) ended x))
  cases loud : m.policy.isSilent with
  | true =>
    refine .inl (idle_of_same ?_)
    unfold receive whileActive
    rw [if_neg started, if_pos (by simp [loud])]
  | false =>
    by_cases hended : s.machine.phase = .finished
    · exact .inr fun w' =>
        idle_of_same (receive_of_finished (s := ⟨.start w', s.machine⟩) hended x)
    have hrunning : p.Running (fun _ => True) ⟨.start w, m⟩ := ⟨started, hm⟩
    have hmoves := receive_moves hrunning (fun _ _ => trivial) received
    have hstarted := (Moves.running hmoves hrunning).started
    have hloud : s.machine.policy.isSilent = false := (Moves.fixed hmoves).policy ▸ loud
    have hstill := obliging.receive (s := ⟨.start w, m⟩) unrefused received
    refine (onMessage_repeats refuses turn hm ⟨started, ended⟩ loud unrefused current received
      hended hstill).imp_right fun handled w' => idle_of_same ?_
    rw [receive_of_unrefused (s := ⟨.start w', s.machine⟩) hstarted hended hloud hstill, handled]

end Host

end EpochConsensus
