import EpochConsensus.Proofs.Epoch.Exposure
import EpochConsensus.Proofs.Epoch.Justification
import Mathlib.Data.Finset.Card
import Mathlib.Data.Finset.Range

/-! # Decisions without waiting

On the fast path an epoch decides on its lock as soon as every process has voted for a block.  The
votes that are counted need not be those for the lock.  They are, unless somebody voted who is not a
process of the system, or a majority voted for two blocks; see `Course.take_unanimous`.

A lock has the votes of a majority behind it (`Host.Tied`), as long as the epoch does not follow the
certificate of a later epoch's proposal, which only a faulty process does.
-/
namespace EpochConsensus

variable {σ : Type}

namespace Host

section
variable (p : Host σ)

/-- More than half of the processes have voted for the block. -/
def Majority (m : Machine) (key : BlockKey) : Prop := ∃ voters : List ProcessId, voters.Nodup ∧
  p.count / 2 < voters.length ∧ ∀ i ∈ voters, (m.votes.get m.epoch key.1 key.2).signedBy i = true

/-- As many as there are processes have voted for one block. -/
def Unanimous (m : Machine) : Prop := ∃ c ∈ m.votes.toList, c.count = p.count

/-- A proposal that may be offered: to a faulty process none of a later epoch. -/
def Timely (policy : Policy) (e : Epoch) (proposal : Proposal) : Prop :=
  policy.isHonest = true ∨ proposal.epoch ≤ e

/-- Locks and decisions have a majority behind them. -/
structure Tied (policy : Policy) (e : Epoch) (m : Machine) : Prop where
  epoch : m.epoch = e
  follows : m.policy = policy
  sorted : m.votes.Sorted
  waiting : ∀ x ∈ m.pending, x.ProposesOnly (Timely policy e)
  locked : m.phase = .locked → ∃ c height id, m.locked = some c ∧
    c.statement = ⟨e, .block height id⟩ ∧ p.Majority m (height, id)
  decided : ∀ key, m.decision = some key →
    (m.phase = .commit ∨ m.phase = .finished) ∧ p.Majority m key

end

variable {p : Host σ} {heard : Endorsement → Prop} {policy : Policy} {e : Epoch} {s s' : Step σ}
  {m : Machine}

/-! ### Strides -/

/-- Timers, proposals, the own vote, blame and exposure make no difference. -/
theorem Tied.aside (h : p.Tied policy e m) {timers : Timers} {proposals : Proposals}
    {hasVoted equivocation : Bool} {blame : Certificate} :
    p.Tied policy e { m with timers, proposals, hasVoted, equivocation, blame } :=
  { h with }

/-- The epoch goes on without its lock. -/
theorem Tied.leave (h : p.Tied policy e m) {phase : Phase} {timers : Timers}
    {equivocation : Bool} {blame : Certificate} {valid locked initialLocked : Option Certificate}
    (off : phase ≠ .locked)
    (stays : m.phase = .commit ∨ m.phase = .finished → phase = .commit ∨ phase = .finished) :
    p.Tied policy e { m with phase, timers, equivocation, blame, valid, locked, initialLocked } :=
  { h with
    locked := fun hphase => absurd hphase off
    decided := fun key hkey => (h.decided key hkey).imp_left stays }

theorem Tied.finish (h : p.Tied policy e m) {timers : Timers} {blame : Certificate}
    {valid locked : Option Certificate} :
    p.Tied policy e { m with phase := .finished, timers, blame, valid, locked } :=
  h.leave Phase.noConfusion fun _ => .inr rfl

/-- A vote takes nobody's vote away. -/
theorem Majority.count {key : BlockKey} (h : p.Majority m key) (sorted : m.votes.Sorted) {v : Vote}
    {proposer : ProcessId} (statement : (m.counted proposer v).statement =
      ⟨m.epoch, .block v.height v.blockId⟩) : p.Majority (m.count proposer v) key := by
  obtain ⟨voters, hnodup, hmany, hvoters⟩ := h
  have hsubject : (m.counted proposer v).statement.subject = .block v.height v.blockId := by
    rw [statement]
  exact ⟨voters, hnodup, hmany, fun i hi =>
    Votes.signedBy_get_put sorted hsubject (fun h => signedBy_counted h proposer) (hvoters i hi)⟩

/-- A lock has the votes that it was made of behind it. -/
theorem majority_of_counted (sorted : m.votes.Sorted) {c : Certificate}
    (counted : c ∈ m.votes.toList) (quorum : c.hasQuorum p.count = true) {height : Height}
    {id : BlockId} (statement : c.statement = ⟨m.epoch, .block height id⟩) :
    p.Majority m (height, id) := by
  refine ⟨c.signatures.processes, c.signatures.nodup_processes, ?_, fun i hi => ?_⟩
  · rw [Roster.length_processes]
    exact of_decide_eq_true quorum
  · have hget : m.votes.get m.epoch height id = c :=
      Votes.get_eq_of_mem sorted counted (by rw [statement])
    rw [hget]
    exact c.signatures.mem_processes.mp hi

theorem Tied.count (h : p.Tied policy e m) {v : Vote} {proposer : ProcessId}
    (statement : (m.counted proposer v).statement = ⟨m.epoch, .block v.height v.blockId⟩) :
    p.Tied policy e (m.count proposer v) where
  epoch := h.epoch
  follows := h.follows
  sorted := h.sorted.put _
  waiting := h.waiting
  locked hphase := by
    obtain ⟨c, height, id, hc, hstatement, hmajority⟩ := h.locked hphase
    exact ⟨c, height, id, hc, hstatement, hmajority.count h.sorted statement⟩
  decided key hkey := by
    obtain ⟨hphase, hmajority⟩ := h.decided key hkey
    exact ⟨hphase, hmajority.count h.sorted statement⟩

theorem Tied.looked (h : p.Tied policy e s.machine) (proposer : ProcessId) (signed : Bool) :
    p.Tied policy e (p.looked proposer signed s).machine := by
  obtain ⟨phase, equivocation, timers, heq, hphase⟩ := p.looked_eq proposer signed s
  rw [heq]
  rcases hphase with rfl | rfl
  · exact h.aside
  · -- nobody stays on a lock once the proposer is exposed
    refine h.leave ?_ ?_
    · cases s.machine.phase <;> simp [Phase.exposed]
    · rintro (hphase | hphase) <;> simp [hphase, Phase.exposed]

/-- A decision is on the lock. -/
theorem Tied.decide (h : p.Tied policy e s.machine) (phase : s.machine.phase = .locked)
    {c : Certificate} {id : BlockId} (locked : s.machine.locked = some c)
    (names : c.blockId? = some id) : p.Tied policy e (Host.decided c id s).machine := by
  obtain ⟨c', height, id', hc, hstatement, hmajority⟩ := h.locked phase
  obtain rfl := Option.some.inj (locked.symm.trans hc)
  refine ⟨h.epoch, h.follows, h.sorted, h.waiting, fun hphase => ?_, fun key hkey => ?_⟩
  · cases hphase
  · obtain rfl : (c.height, id) = key := Option.some.inj hkey
    have hkey : (c.height, id) = (height, id') := by
      unfold Certificate.blockId? at names
      unfold Certificate.height
      rw [hstatement] at names ⊢
      rw [Option.some.inj names]
    exact ⟨.inl rfl, hkey ▸ hmajority⟩

/-- An epoch on its lock does not follow the certificate of a proposal that came in time, which is
of an earlier epoch. -/
theorem ranksAtLeast_of_timely {proposal : Proposal} (valid : p.isValid proposal = .ok true)
    (current : proposal.epoch ≤ e) {c : Certificate} (own : c.epoch = e) :
    Certificate.ranksAtLeast proposal.certificate (some c) = false := by
  cases hcertificate : proposal.certificate with
  | none => rfl
  | some d =>
    have hearlier : d.epoch < proposal.epoch :=
      (namesParent_of_isJustified hcertificate (isValid_eq_true valid).2).2.1
    have hlater : ¬ c.epoch ≤ d.epoch := by
      rw [own]
      exact UInt64.not_le.mpr (UInt64.lt_of_lt_of_le hearlier current)
    exact decide_eq_false hlater

theorem Tied.silence (h : p.Tied policy e s.machine) (b : Silence) :
    p.Tied policy e (p.onSilence b s).machine := by
  obtain ⟨phase, blame, timers, heq, hphase⟩ := p.onSilence_eq b s
  rw [heq]
  rcases hphase with rfl | ⟨rfl, hready⟩ | rfl
  · exact h.aside
  · exact h.leave Phase.noConfusion fun hended => by simp [hready] at hended
  · exact h.finish

/-- A lock is a quorum of votes. -/
theorem Tied.lock (h : p.Tied policy e m) {c : Certificate} {height : Height} {id : BlockId}
    (phase : m.phase = .ready) (counted : c ∈ m.votes.toList)
    (quorum : c.hasQuorum p.count = true) (statement : c.statement = ⟨m.epoch, .block height id⟩) :
    p.Tied policy e { m with phase := .locked, valid := some c, locked := some c } := by
  refine { h with locked := fun _ => ?_, decided := fun key hkey => ?_ }
  · exact ⟨c, height, id, rfl, h.epoch ▸ statement,
      majority_of_counted h.sorted counted quorum statement⟩
  · have hphase := (h.decided key hkey).1
    simp [phase] at hphase

/-- A faulty process on its lock does not move it, unless a proposal of a later epoch is offered. -/
theorem Tied.follow (h : p.Tied policy e m) {proposal : Proposal}
    (faulty : m.policy.isHonest = false) (offers : Timely policy e proposal)
    (valid : p.isValid proposal = .ok true)
    (ranks : Certificate.ranksAtLeast proposal.certificate m.locked = true) :
    p.Tied policy e { m with locked := proposal.certificate } := by
  refine { h with locked := fun hphase => ?_ }
  obtain ⟨c, height, id, hc, hstatement, -⟩ := h.locked hphase
  have hcurrent : proposal.epoch ≤ e := by
    refine offers.resolve_left fun honest => ?_
    rw [← h.follows, faulty] at honest
    cases honest
  have hown : c.epoch = e := by
    unfold Certificate.epoch
    rw [hstatement]
  rw [hc, ranksAtLeast_of_timely valid hcurrent hown] at ranks
  cases ranks

/-- **Every stride keeps a majority behind locks and decisions.** -/
theorem Stride.tied (stride : p.Stride heard (Timely policy e) s s') (hs : p.Running heard s)
    (h : p.Tied policy e s.machine) : p.Tied policy e s'.machine := by
  cases stride with
  | schedule | refuse | relay | cast => exact h.aside
  | @enlist proposal =>
    obtain ⟨proposals, heq⟩ := enlist_eq s.machine proposal
    rw [heq]
    exact h.aside
  | @count v proposer signed active current turn admitted unsigned =>
    have hstatement := (hs.sound.statement_counted proposer current).trans
      (show v.statement = ⟨s.machine.epoch, .block v.height v.blockId⟩ by
        rw [Vote.statement, current])
    exact (h.count hstatement).looked proposer signed
  | @lock c phase counted quorum =>
    obtain ⟨height, id, hstatement⟩ := (hs.sound.votes c counted).1
    exact h.lock phase counted quorum hstatement
  | pass | commit => exact h.finish
  | decide phase locked names => exact h.decide phase locked names
  | follow faulty admitted offers valid ranks => exact h.follow faulty offers valid ranks
  | silence admitted => exact h.silence _

/-- A decision that was not waited for. -/
def Hasty (p : Host σ) (m : Machine) : Prop := m.policy.fastPath = true ∧ p.Unanimous m

/-- **A stride decides only once as many have voted as there are processes.** -/
theorem Stride.hasty (stride : p.Stride heard (Timely policy e) s s')
    (tied : p.Tied policy e s.machine) (h : s.machine.decision = none ∨ p.Hasty s.machine) :
    s'.machine.decision = none ∨ p.Hasty s'.machine := by
  cases stride with
  | schedule | refuse | relay | cast | lock | pass | commit | follow => exact h
  | @enlist proposal =>
    obtain ⟨proposals, heq⟩ := enlist_eq s.machine proposal
    rw [heq]
    exact h
  | @silence b admitted =>
    obtain ⟨phase, blame, timers, heq, -⟩ := p.onSilence_eq b s
    rw [heq]
    exact h
  | @count v proposer signed active =>
    obtain ⟨phase, equivocation, timers, heq, -⟩ := p.looked_eq proposer signed
      { s with machine := s.machine.count proposer v }
    refine .inl ((congrArg Machine.decision heq).trans ?_)
    -- votes are counted only before the decision
    cases hdecision : s.machine.decision with
    | none => exact hdecision
    | some key =>
      rcases (tied.decided key hdecision).1 with hphase | hphase
      · exact absurd hphase active.1
      · exact absurd hphase active.2
  | decide phase locked names fast counted all => exact .inr ⟨fast, _, counted, all⟩

/-! ### Paths -/

theorem Strides.tied (strides : p.Strides heard (Timely policy e) s s') (hs : p.Running heard s)
    (h : p.Tied policy e s.machine) : p.Tied policy e s'.machine ∧
      (s.machine.decision = none → s'.machine.decision = none ∨ p.Hasty s'.machine) := by
  induction strides with
  | refl => exact ⟨h, .inl⟩
  | tail path stride ih =>
    have hrunning := Strides.running path hs
    exact ⟨stride.tied hrunning ih.1, fun hnone => stride.hasty ih.1 (ih.2 hnone)⟩

/-! ### Calls -/

/-- A message that waits may be offered later. -/
theorem Tied.keep (h : p.Tied policy e s.machine) {x : Message}
    (offers : x.ProposesOnly (Timely policy e)) : p.Tied policy e (keep x s).machine := by
  obtain ⟨pending, heq, hpending⟩ := keep_eq x s
  rw [heq]
  refine { h with waiting := fun y hy => ?_ }
  rcases hpending y hy with hold | rfl
  · exact h.waiting y hold
  · exact offers

theorem receive_tied (h : p.Tied policy e s.machine) (hs : p.Sound (fun _ => True) s.machine)
    {x : Message} (offers : x.ProposesOnly (Timely policy e)) (done : p.receive x s = .ok s') :
    p.Tied policy e s'.machine ∧
      (s.machine.decision = none → s'.machine.decision = none ∨ p.Hasty s'.machine) := by
  by_cases hphase : s.machine.phase = .inactive
  · obtain rfl := receive_inactive hphase done
    refine ⟨h.keep offers, fun hnone => .inl ?_⟩
    obtain ⟨pending, heq, -⟩ := keep_eq x s
    rw [heq]
    exact hnone
  · have hrunning : p.Running (fun _ => True) s := ⟨hphase, hs⟩
    exact Strides.tied (receive_strides hrunning (fun _ _ => trivial) offers done) hrunning h

theorem start_tied (h : p.Tied policy e s.machine) (hs : p.Sound (fun _ => True) s.machine)
    {valid locked : Option Certificate} (done : p.start valid locked s = .ok s') :
    p.Tied policy e s'.machine ∧
      (s.machine.decision = none → s'.machine.decision = none ∨ p.Hasty s'.machine) := by
  by_cases hphase : s.machine.phase = .inactive
  swap
  · unfold start at done
    rw [if_pos (by simp [Machine.started, hphase])] at done
    cases done
    exact ⟨h, .inl⟩
  have hopened : p.Tied policy e (s.machine.opened valid locked) :=
    h.leave Phase.noConfusion fun hended => by simp [hphase] at hended
  rcases start_cases hphase done with ⟨-, rfl⟩ | ⟨b, hb, hrest⟩
  · exact ⟨{ hopened with waiting := by simp }, .inl⟩
  · have hrunning := hs.begun (fun _ _ _ _ => trivial) (fun _ _ _ _ => trivial) hb
    obtain ⟨timers, heq⟩ := begin_machine hb
    have hbegun : p.Tied policy e { b with machine.pending := [] }.machine := by
      rw [heq]
      exact { hopened with waiting := by simp }
    obtain ⟨htied, hhasty⟩ :=
      Strides.tied (start_strides hrunning hs.pending h.waiting hrest) hrunning hbegun
    refine ⟨htied, fun hnone => hhasty ?_⟩
    rw [heq]
    exact hnone

/-- A decision on the lock, whatever it was that made the epoch decide. -/
theorem decideLocked_tied (h : p.Tied policy e s.machine) (phase : s.machine.phase = .locked) :
    p.Tied policy e (p.decideLocked s).machine := by
  rcases p.decideLocked_cases s with heq | ⟨c, id, locked, names, heq⟩
  · rwa [heq]
  have hdecided := h.decide phase locked names
  rw [heq]
  rcases p.tryToCommit_cases (decided c id s) with heq | ⟨_, _, -, -, -, -, heq⟩
  · rwa [heq]
  · rw [heq]
    exact hdecided.finish

theorem expire_tied (h : p.Tied policy e s.machine) {t : Timeout} (done : p.expire t s = .ok s') :
    p.Tied policy e s'.machine ∧ (t.kind ≠ .equivocation →
      s.machine.decision = none → s'.machine.decision = none) := by
  rcases expire_cases done with rfl | ⟨-, -, done⟩
  · exact ⟨h, fun _ hnone => hnone⟩
  have hclock : p.Tied policy e { s.machine with timers := s.machine.timers.expire t.kind } :=
    h.aside
  rcases onTimeout_cases done with
    rfl | ⟨-, -, rfl⟩ | ⟨hkind, phase, rfl⟩ | ⟨phase, rfl⟩ | ⟨-, done⟩
  · exact ⟨hclock, fun _ hnone => hnone⟩
  · exact ⟨hclock, fun _ hnone => hnone⟩
  · exact ⟨decideLocked_tied hclock phase, fun hother => absurd hkind hother⟩
  · exact ⟨hclock.finish, fun _ hnone => hnone⟩
  · have hmachine := proposeSplit_machine done
    rw [hmachine]
    exact ⟨hclock, fun _ hnone => hnone⟩

end Host

/-! ### All votes -/

/-- As many signatures as there are processes, all of them of processes, are those of all. -/
theorem Certificate.signedBy_of_count {d : Certificate} {n : Nat} (all : d.count = n)
    (inside : ∀ i, d.signedBy i = true → i.toNat < n) {i : ProcessId} (hi : i.toNat < n) :
    d.signedBy i = true := by
  let signers := d.signatures.processes.toFinset.image UInt16.toNat
  have hcard : signers.card = n := by
    rw [Finset.card_image_of_injective _ fun _ _ => UInt16.toNat_inj.mp,
      List.toFinset_card_of_nodup d.signatures.nodup_processes, Roster.length_processes]
    exact all
  have hsubset : signers ⊆ Finset.range n := by
    refine Finset.image_subset_iff.mpr fun j hj => Finset.mem_range.mpr (inside j ?_)
    exact d.signatures.mem_processes.mp (List.mem_toFinset.mp hj)
  have heverybody : signers = Finset.range n :=
    Finset.eq_of_subset_of_card_le hsubset (by rw [hcard, Finset.card_range])
  have hsigner : i.toNat ∈ signers := heverybody ▸ Finset.mem_range.mpr hi
  obtain ⟨j, hj, hsame⟩ := Finset.mem_image.mp hsigner
  obtain rfl := UInt16.toNat_inj.mp hsame
  exact d.signatures.mem_processes.mp (List.mem_toFinset.mp hj)

namespace Host

section
variable (p : Host σ)

/-- Every process has voted for the block. -/
def Complete (m : Machine) (key : BlockKey) : Prop :=
  ∀ i : ProcessId, i.toNat < p.count → (m.votes.get m.epoch key.1 key.2).signedBy i = true

/-- Somebody who is not a process of the system has voted. -/
def Intruded (m : Machine) : Prop :=
  ∃ d ∈ m.votes.toList, ∃ i : ProcessId, d.signedBy i = true ∧ p.count ≤ i.toNat

/-- More than half of the processes, the proposer not among them, have voted for two blocks. -/
def Torn (m : Machine) : Prop := ∃ voters : List ProcessId, voters.Nodup ∧
  p.count / 2 < voters.length ∧
  ∀ i ∈ voters, i.toNat < p.count ∧ m.votes.SignedTwice i ∧ p.proposer m.epoch ≠ .ok i

end

variable {p : Host σ} {policy : Policy} {e : Epoch} {m : Machine}

/-- All have voted for the block that a majority is behind, or that majority has voted for two. -/
theorem Tied.complete (h : p.Tied policy e m)
    (blocks : ∀ d ∈ m.votes.toList, ∃ height id, d.statement = ⟨m.epoch, .block height id⟩)
    (single : ∀ q, p.proposer m.epoch = .ok q → ¬ m.votes.SignedTwice q) (all : p.Unanimous m)
    {key : BlockKey} (decision : m.decision = some key) :
    p.Complete m key ∨ p.Intruded m ∨ p.Torn m := by
  by_cases intruded : p.Intruded m
  · exact .inr (.inl intruded)
  have hinside : ∀ d ∈ m.votes.toList, ∀ i, d.signedBy i = true → i.toNat < p.count :=
    fun d hd i hsigned => Nat.lt_of_not_le fun hle => intruded ⟨d, hd, i, hsigned, hle⟩
  obtain ⟨d, hd, hcount⟩ := all
  have heverybody : ∀ i : ProcessId, i.toNat < p.count → d.signedBy i = true :=
    fun i hi => d.signedBy_of_count hcount (hinside d hd) hi
  obtain ⟨height, id, hstatement⟩ := blocks d hd
  have hsubject : d.statement.subject = .block height id := by rw [hstatement]
  by_cases hsame : (height, id) = key
  · obtain rfl := hsame
    left
    unfold Complete
    rwa [Votes.get_eq_of_mem h.sorted hd hsubject]
  · -- the majority behind the decision has voted for the block that all have voted for as well
    obtain ⟨-, voters, hnodup, hmany, hvoters⟩ := h.decided key decision
    refine .inr (.inr ⟨voters, hnodup, hmany, fun i hi => ?_⟩)
    obtain ⟨hmem, hother⟩ := Votes.mem_of_signedBy_get (hvoters i hi)
    have hprocess : i.toNat < p.count := hinside _ hmem i (hvoters i hi)
    have htwice : m.votes.SignedTwice i := by
      refine ⟨_, hmem, d, hd, ?_, hvoters i hi, heverybody i hprocess⟩
      rw [hother, hsubject]
      rintro hkey
      obtain ⟨rfl, rfl⟩ := Subject.block.inj hkey
      exact hsame rfl
    exact ⟨hprocess, htwice, fun turn => single i turn htwice⟩

end Host

/-! ### Runs -/

namespace Course

variable {p : Host σ} {policy : Policy} {e : Epoch} {c c' : Course σ}

theorem tied_create (p : Host σ) (e : Epoch) (policy : Policy) (pendingLimit : Nat) :
    p.Tied policy e (create (σ := σ) e policy pendingLimit).machine where
  epoch := rfl
  follows := rfl
  sorted := Votes.sorted_empty
  waiting := by simp [create, Machine.create]
  locked := by simp [create, Machine.create]
  decided := by simp [create, Machine.create]

/-- A call leaves the epoch tied, and decides only once as many have voted as there are processes,
unless it is the end of the wait for evidence. -/
theorem take_tied (h : p.Tied policy e c.machine) (hc : p.Sound (fun _ => True) c.machine)
    {call : Call} {w : σ}
    (offers : ∀ x, call = .receive x → x.ProposesOnly (Host.Timely policy e))
    (taken : c.take p call w = .ok c') :
    p.Tied policy e c'.machine ∧ ((∀ t, call = .expire t → t.kind ≠ .equivocation) →
      c.machine.decision = none → c'.machine.decision = none ∨ p.Hasty c'.machine) := by
  obtain ⟨s, hs, rfl⟩ := take_eq_ok.mp taken
  cases call with
  | start valid locked =>
    obtain ⟨htied, hhasty⟩ := Host.start_tied (s := ⟨.start w, c.machine⟩) h hc hs
    exact ⟨htied, fun _ => hhasty⟩
  | receive x =>
    obtain ⟨htied, hhasty⟩ :=
      Host.receive_tied (s := ⟨.start w, c.machine⟩) h hc (offers x rfl) hs
    exact ⟨htied, fun _ => hhasty⟩
  | expire t =>
    obtain ⟨htied, hwaits⟩ := Host.expire_tied (s := ⟨.start w, c.machine⟩) h hs
    exact ⟨htied, fun other hnone => .inl (hwaits (other t rfl) hnone)⟩
  | stop =>
    cases hs
    exact ⟨h.finish, fun _ hnone => .inl hnone⟩

theorem run_tied {calls : List (Call × σ)} (h : p.Tied policy e c.machine)
    (hc : p.Sound (fun _ => True) c.machine)
    (offers : ∀ x ∈ calls, ∀ m, x.1 = .receive m → m.ProposesOnly (Host.Timely policy e))
    (ran : c.run p calls = .ok c') : p.Tied policy e c'.machine :=
  (run_keeps (motive := fun d => p.Tied policy e d.machine)
    (fun _ x _ hx hsound htied taken => (take_tied htied hsound (offers x hx) taken).1) hc ran h).1

/-- **What a decision without waiting rests on.**  When an epoch decides in a call that is not the
end of the wait for evidence, its policy takes the fast path, and every process has voted for the
block that it decides on; unless a vote was counted whose author is no process of the system, or
more than half of the processes, the proposer not among them, have voted for two blocks. -/
theorem take_unanimous {pendingLimit : Nat} {calls : List (Call × σ)} {call : Call} {w : σ}
    {key : BlockKey} (ran : (create e policy pendingLimit).run p calls = .ok c)
    (taken : c.take p call w = .ok c')
    (offers : ∀ x ∈ calls ++ [(call, w)], ∀ m, x.1 = .receive m →
      m.ProposesOnly (Host.Timely policy e))
    (hasty : ∀ t, call = .expire t → t.kind ≠ .equivocation)
    (undecided : c.machine.decision = none) (decides : c'.machine.decision = some key) :
    policy.fastPath = true ∧
      (p.Complete c'.machine key ∨ p.Intruded c'.machine ∨ p.Torn c'.machine) := by
  obtain ⟨hpath, hsound⟩ := run_changes (sound_create e policy pendingLimit) ran
  obtain ⟨hcall, hsound'⟩ := take_changes hsound taken
  have htied : p.Tied policy e c.machine := run_tied (tied_create p e policy pendingLimit)
    (sound_create e policy pendingLimit)
    (fun x hx => offers x (List.mem_append_left _ hx)) ran
  obtain ⟨htied', hhasty⟩ :=
    take_tied htied hsound (offers (call, w) (List.mem_append_right _ List.mem_cons_self)) taken
  obtain ⟨fast, all⟩ := (hhasty hasty undecided).resolve_left (by simp [decides])
  refine ⟨htied'.follows ▸ fast,
    htied'.complete (fun d hd => (hsound'.votes d hd).1) ?_ all decides⟩
  -- the proposer is not exposed, since the epoch has decided
  intro q turn twice
  rw [htied'.epoch] at turn
  have hwatched : Watched q e c' :=
    Changes.watched turn (hpath.trans hcall) (watched_create q e policy pendingLimit)
  have hexposed := hwatched.exact.mpr twice
  have hnone : c'.machine.decision = none := by
    refine (hwatched.undecided ?_ fun _ => hexposed).1
    rcases hwatched.left hexposed with hphase | hphase <;> simp [hphase]
  rw [decides] at hnone
  cases hnone

/-! ### Fast decisions of one epoch -/

/-- Process 1 of five, with process 0 as the proposer. -/
def fastHost : Host Script := Script.host 1 5 (some 0) fun _ => 0

/-- An epoch is started, and these calls follow. -/
def fastCalls (calls : List Call) : List (Call × Script) :=
  (.start none none :: calls).map fun call => (call, ⟨[], none, true, true, true⟩)

/-- A vote for the block with this name. -/
def voteFor (name : UInt8) (voter : ProcessId) : Call :=
  .receive (.vote ⟨0, 0, ⟨.fill 32 name⟩, voter, ⟨.fill 64 1⟩, voter, none⟩)

/-- The epoch before the last of the calls, and after it. -/
def fastRun (policy : Policy) (calls : List Call) (last : Call) :
    Except Fault (Course Script × Course Script) := do
  let c ← (create 0 policy 1).run fastHost (fastCalls calls)
  return (c, ← c.take fastHost last ⟨[], none, true, true, true⟩)

theorem fastRun_eq_ok {policy : Policy} {calls : List Call} {last : Call} {c c' : Course Script} :
    fastRun policy calls last = .ok (c, c') ↔
      (create 0 policy 1).run fastHost (fastCalls calls) = .ok c ∧
        c.take fastHost last ⟨[], none, true, true, true⟩ = .ok c' := by
  unfold fastRun
  simp [bind_eq_ok, pure, Except.pure]

/-- Where the votes are for one block, and of processes of the system, there is nothing wrong with
them. -/
theorem not_intruded_not_torn {p : Host σ} {m : Machine} {d : Certificate}
    (single : m.votes.toList = [d]) (inside : ∀ i ∈ d.signatures.processes, i.toNat < p.count) :
    ¬ p.Intruded m ∧ ¬ p.Torn m := by
  constructor
  · rintro ⟨x, hx, i, hsigned, hle⟩
    rw [single] at hx
    obtain rfl := List.mem_singleton.mp hx
    exact Nat.not_le.mpr (inside i (x.signatures.mem_processes.mpr hsigned)) hle
  · rintro ⟨voters, -, hmany, hvoters⟩
    obtain ⟨i, hi⟩ := List.exists_mem_of_length_pos (Nat.zero_lt_of_lt hmany)
    obtain ⟨-, ⟨x, hx, y, hy, hne, -⟩, -⟩ := hvoters i hi
    rw [single] at hx hy
    obtain rfl := List.mem_singleton.mp hx
    obtain rfl := List.mem_singleton.mp hy
    exact hne rfl

/-- In this run the last of five votes decides, for the block that all five have voted for. -/
theorem take_unanimous_five :
    ∃ c c' key, fastRun ⟨.honest, true⟩ ([0, 1, 2, 3].map (voteFor 1)) (voteFor 1 4) = .ok (c, c') ∧
      c.machine.decision = none ∧ c'.machine.decision = some key ∧
      fastHost.Complete c'.machine key := by
  obtain ⟨⟨c, c'⟩, hrun, hstate⟩ : ∃ x,
      fastRun ⟨.honest, true⟩ ([0, 1, 2, 3].map (voteFor 1)) (voteFor 1 4) = .ok x ∧
        (x.1.machine.decision, x.2.machine.decision,
            x.2.machine.votes.toList.map (·.signatures.processes)) =
          (none, some (0, ⟨.fill 32 1⟩), [[0, 1, 2, 3, 4]]) :=
    exists_of_toOption (by decide +kernel)
  simp only [Prod.mk.injEq] at hstate
  obtain ⟨undecided, decides, hvotes⟩ := hstate
  obtain ⟨ran, taken⟩ := fastRun_eq_ok.mp hrun
  obtain ⟨d, hd, hsigners⟩ := List.map_eq_singleton_iff.mp hvotes
  have hmembers : [0, 1, 2, 3, 4].all (fun i : ProcessId => i.toNat < fastHost.count) = true := by
    decide
  obtain ⟨hinside, hwhole⟩ := not_intruded_not_torn (p := fastHost) hd fun i hi =>
    of_decide_eq_true (List.all_eq_true.mp hmembers i (hsigners ▸ hi))
  have hall := (take_unanimous ran taken (fun _ _ _ _ _ _ => .inl rfl) (by simp [voteFor])
    undecided decides).2
  exact ⟨c, c', _, hrun, undecided, decides,
    hall.resolve_right fun h => h.elim hinside hwhole⟩

/-- The last of these calls makes the epoch decide for a block that not all have voted for. -/
def DecidesShort (policy : Policy) (calls : List Call) (last : Call) : Prop :=
  ∃ c c' key, fastRun policy calls last = .ok (c, c') ∧ c.machine.decision = none ∧
    c'.machine.decision = some key ∧ ¬ fastHost.Complete c'.machine key

theorem decidesShort {policy : Policy} {calls : List Call} {last : Call} (key : BlockKey)
    (i : ProcessId) (hi : i.toNat < fastHost.count)
    (h : (fastRun policy calls last).toOption.map (fun x => (x.1.machine.decision,
      x.2.machine.decision, (x.2.machine.votes.get x.2.machine.epoch key.1 key.2).signedBy i)) =
        some (none, some key, false)) : DecidesShort policy calls last := by
  obtain ⟨⟨c, c'⟩, hrun, hstate⟩ := exists_of_toOption h
  simp only [Prod.mk.injEq] at hstate
  obtain ⟨undecided, decides, hmissing⟩ := hstate
  exact ⟨c, c', key, hrun, undecided, decides, fun hall => by simp [hall i hi] at hmissing⟩

/-- A proposal of the next epoch, on a block that processes 2, 3 and 4 have voted for. -/
def nextProposal : Proposal :=
  ⟨1, .ofFields 1 (some ⟨.fill 32 2⟩) [1] (by simp),
    some ((((Certificate.block 0 0 ⟨.fill 32 2⟩).add 2 ⟨.fill 64 1⟩).add 3 ⟨.fill 64 1⟩).add 4
      ⟨.fill 64 1⟩), 0, 0, ⟨.fill 64 1⟩⟩

/-- Three ways to decide for a block that not all have voted for: a majority votes for two blocks,
somebody votes who is not one of the five, and a faulty process moves its lock to the certificate
of a later proposal. -/
theorem decides_without_all :
    DecidesShort ⟨.honest, true⟩
        ([2, 3, 4].map (voteFor 1) ++ [0, 1, 2, 3].map (voteFor 2)) (voteFor 2 4) ∧
      DecidesShort ⟨.honest, true⟩ ([0, 1, 2, 3].map (voteFor 1)) (voteFor 1 5) ∧
      DecidesShort ⟨.equivocating, true⟩
        ([0, 1, 2].map (voteFor 1) ++ [.receive (.propose nextProposal), voteFor 1 3])
        (voteFor 1 4) := by
  refine ⟨?_, ?_, ?_⟩
  · exact decidesShort (0, ⟨.fill 32 1⟩) 0 (by decide) (by decide +kernel)
  · exact decidesShort (0, ⟨.fill 32 1⟩) 4 (by decide) (by decide +kernel)
  · exact decidesShort (0, ⟨.fill 32 2⟩) 0 (by decide) (by decide +kernel)

end Course

end EpochConsensus
