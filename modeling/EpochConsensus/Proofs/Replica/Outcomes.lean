import EpochConsensus.Proofs.Epoch.Calls
import EpochConsensus.Replica

/-! # What epochs leave to settle

Between its start and its hand-over an epoch is open (`Machine.IsOpen`): it leaves nothing to settle
while it stays so, and the end of an open epoch hands over once.  After that at most a decision
follows.  `Machine.Leaves` says this of any stretch of what an epoch does; it holds of every move
(`Host.Move.leaves`) and so of every call (`Host.receive_leaves`, `Host.expire_leaves`,
`Host.start_leaves`).
-/
namespace EpochConsensus

variable {σ : Type}

def Outcome.epoch : Outcome → Epoch
  | decided e _ => e
  | finished e _ _ => e

/-- What a call has left to settle so far. -/
def Context.outcomes (c : Context σ) : List Outcome := c.effects.toList.filterMap Outcome.ofEffect?

@[simp] theorem Context.outcomes_start (w : σ) : (Context.start w).outcomes = [] := by
  simp [outcomes, effects, start]

@[simp] theorem Context.outcomes_record (c : Context σ) (x : Moment σ) :
    (c.record x).outcomes = c.outcomes ++ (Outcome.ofEffect? x.effect).toList := by
  unfold outcomes effects record
  rw [Array.map_push, Array.toList_push, List.filterMap_append]
  cases h : Outcome.ofEffect? x.effect <;> simp [h]

theorem Context.outcomes_emit (c : Context σ) (e : Effect) :
    (c.emit e).outcomes = c.outcomes ++ (Outcome.ofEffect? e).toList := c.outcomes_record _

@[simp] theorem Step.outcomes_emit (s : Step σ) (e : Effect) :
    (s.emit e).toContext.outcomes = s.toContext.outcomes ++ (Outcome.ofEffect? e).toList :=
  s.toContext.outcomes_record _

theorem Step.outcomes_forwardAll (s : Step σ) (bs : List Ballot) :
    (s.forwardAll bs).toContext.outcomes = s.toContext.outcomes := by
  induction bs generalizing s with
  | nil => rfl
  | cons b bs ih =>
    show ((s.emit (.forward b.toMessage)).forwardAll bs).toContext.outcomes = _
    rw [ih]
    simp [Outcome.ofEffect?]

namespace Machine

/-- How much an epoch can still leave to settle. -/
def outcomesLeft (m : Machine) : Nat :=
  match m.phase with
  | .inactive | .ready => 2
  | .epochChange | .locked | .commit => 1
  | .finished => 0

/-- What is left to settle as an epoch goes from `m` to `m'`. -/
structure Leaves (m m' : Machine) (left : List Outcome) : Prop where
  epoch : m'.epoch = m.epoch
  /-- An epoch that is open after that has been all along, and has left nothing. -/
  opened : m'.IsOpen → m.IsOpen ∧ left = []
  /-- An epoch that stops being open hands over first of all. -/
  closes : m.IsOpen → ¬ m'.IsOpen → ∃ valid locked rest,
    left = .finished m.epoch valid locked :: rest ∧ ∀ o ∈ rest, ∃ b, o = .decided m.epoch b
  closed : ¬ m.IsOpen → ∀ o ∈ left, ∃ b, o = .decided m.epoch b
  few : left.length + m'.outcomesLeft ≤ m.outcomesLeft

variable {m m' m'' : Machine} {xs ys : List Outcome}

/-- What leaves an epoch as open as it was may leave nothing to settle. -/
theorem Leaves.nothing (epoch : m'.epoch = m.epoch) (opened : m'.IsOpen ↔ m.IsOpen)
    (few : m'.outcomesLeft ≤ m.outcomesLeft) : m.Leaves m' [] where
  epoch := epoch
  opened h := ⟨opened.mp h, rfl⟩
  closes h h' := absurd (opened.mpr h) h'
  closed _ := by simp
  few := by simpa using few

theorem Leaves.of_phase (epoch : m'.epoch = m.epoch) (phase : m'.phase = m.phase) :
    m.Leaves m' [] :=
  .nothing epoch (by rw [IsOpen, phase, IsOpen]) (by simp [outcomesLeft, phase])

/-- The hand-over of an open epoch. -/
theorem Leaves.handOver (epoch : m'.epoch = m.epoch) (opened : m.IsOpen) (closes : ¬ m'.IsOpen)
    (few : m'.outcomesLeft < m.outcomesLeft) (valid locked : Option Certificate) :
    m.Leaves m' [.finished m.epoch valid locked] where
  epoch := epoch
  opened h := absurd h closes
  closes _ _ := ⟨valid, locked, [], rfl, by simp⟩
  closed h := absurd opened h
  few := by
    rw [List.length_singleton]
    omega

theorem Leaves.trans (h : m.Leaves m' xs) (h' : m'.Leaves m'' ys) : m.Leaves m'' (xs ++ ys) where
  epoch := h'.epoch.trans h.epoch
  opened hopen := by
    obtain ⟨hopen', rfl⟩ := h'.opened hopen
    obtain ⟨hopen'', rfl⟩ := h.opened hopen'
    exact ⟨hopen'', rfl⟩
  closes hopen hclosed := by
    by_cases hmid : m'.IsOpen
    · obtain ⟨-, rfl⟩ := h.opened hmid
      rw [← h.epoch]
      exact h'.closes hmid hclosed
    · obtain ⟨valid, locked, rest, rfl, hrest⟩ := h.closes hopen hmid
      refine ⟨valid, locked, rest ++ ys, rfl, ?_⟩
      intro o ho
      rcases List.mem_append.mp ho with ho | ho
      · exact hrest o ho
      · rw [← h.epoch]
        exact h'.closed hmid o ho
  closed hclosed o ho := by
    have hmid : ¬ m'.IsOpen := fun hopen => hclosed (h.opened hopen).1
    rcases List.mem_append.mp ho with ho | ho
    · exact h.closed hclosed o ho
    · rw [← h.epoch]
      exact h'.closed hmid o ho
  few := by
    have hfirst := h.few
    have hsecond := h'.few
    rw [List.length_append]
    omega

/-- What an epoch leaves to settle is its own. -/
theorem Leaves.epoch_of_mem (h : m.Leaves m' xs) {o : Outcome} (ho : o ∈ xs) :
    o.epoch = m.epoch := by
  have hdecided : ∀ ys : List Outcome, (∀ o ∈ ys, ∃ b, o = .decided m.epoch b) → o ∈ ys →
      o.epoch = m.epoch := by
    intro ys hys ho
    obtain ⟨b, rfl⟩ := hys o ho
    rfl
  by_cases hopen : m.IsOpen
  · by_cases hopen' : m'.IsOpen
    · rw [(h.opened hopen').2] at ho
      cases ho
    · obtain ⟨valid, locked, rest, rfl, hrest⟩ := h.closes hopen hopen'
      rcases List.mem_cons.mp ho with rfl | ho
      · rfl
      · exact hdecided rest hrest ho
  · exact hdecided xs (h.closed hopen) ho

end Machine

namespace Host

variable {p : Host σ} {heard : Endorsement → Prop} {s s' : Step σ}

/-! ### Questions and proposals -/

theorem outcomes_asks {c c' : Context σ} (h : p.Asks c c') : c'.outcomes = c.outcomes := by
  rcases h with rfl | ⟨t, rfl⟩
  · rfl
  · exact (Context.outcomes_emit _ _).trans (List.append_nil _)

theorem outcomes_schedule (kind : TimeoutKind) (s : Step σ) :
    (p.schedule kind s).toContext.outcomes = s.toContext.outcomes := by
  obtain ⟨c, timers, asked, heq⟩ := p.schedule_eq kind s
  rw [heq]
  exact outcomes_asks asked

theorem outcomes_store {c c' : Context σ} {b : Block} {added : Bool}
    (h : p.store c b = .ok (added, c')) : c'.outcomes = c.outcomes := by
  unfold store at h
  simp only [pure, Except.pure] at h
  obtain ⟨⟨answer, world⟩, -, h⟩ := bind_eq_ok.mp h
  cases h
  exact (Context.outcomes_emit _ _).trans (List.append_nil _)

theorem outcomes_takeValue (c : Context σ) : (p.takeValue c).2.outcomes = c.outcomes :=
  (Context.outcomes_emit _ _).trans (List.append_nil _)

theorem outcomes_propose (h : p.propose s = .ok s') :
    s'.toContext.outcomes = s.toContext.outcomes := by
  unfold propose at h
  simp only [pure, Except.pure] at h
  split at h
  · cases h
    exact p.outcomes_takeValue _
  · obtain ⟨b, -, h⟩ := bind_eq_ok.mp h
    cases h
    rw [Step.outcomes_emit]
    exact (List.append_nil _).trans (p.outcomes_takeValue _)

theorem outcomes_proposeSplit (h : p.proposeSplit s = .ok s') :
    s'.toContext.outcomes = s.toContext.outcomes := by
  unfold proposeSplit at h
  simp only [pure, Except.pure] at h
  have hasked := (p.outcomes_takeValue (p.takeValue s.toContext).2).trans
    (p.outcomes_takeValue s.toContext)
  split at h
  · simp only [bind_eq_ok] at h
    obtain ⟨a, -, b, -, h⟩ := h
    cases h
    rw [Step.outcomes_emit, Step.outcomes_emit]
    exact (List.append_nil _).trans ((List.append_nil _).trans hasked)
  · cases h
    exact hasked

theorem outcomes_begin (h : p.begin s = .ok s') :
    s'.toContext.outcomes = s.toContext.outcomes := by
  unfold begin at h
  simp only [pure, Except.pure] at h
  obtain ⟨q, -, h⟩ := bind_eq_ok.mp h
  split at h
  · unfold lead at h
    simp only [pure, Except.pure] at h
    split at h
    · exact outcomes_propose h
    · obtain ⟨follows, -, h⟩ := bind_eq_ok.mp h
      split at h
      · exact outcomes_proposeSplit h
      · cases h
        exact outcomes_schedule _ _
  · cases h
    exact outcomes_schedule _ _

/-! ### Moves -/

/-- What an epoch does between two points of a call. -/
def Between (s s' : Step σ) : Prop := ∃ left,
  s'.toContext.outcomes = s.toContext.outcomes ++ left ∧ s.machine.Leaves s'.machine left

theorem Between.of_phase (outcomes : s'.toContext.outcomes = s.toContext.outcomes)
    (epoch : s'.machine.epoch = s.machine.epoch) (phase : s'.machine.phase = s.machine.phase) :
    Between s s' := ⟨[], by rw [outcomes, List.append_nil], .of_phase epoch phase⟩

/-- **Every move leaves to settle what it may.** -/
theorem Move.leaves (move : p.Move heard s s') : Between s s' := by
  cases move with
  | schedule timers asked => exact .of_phase (outcomes_asks asked) rfl rfl
  | refuse asked => exact .of_phase (outcomes_store asked) rfl rfl
  | @enlist proposal _ fresh valid admitted asked =>
    obtain ⟨proposals, heq⟩ := enlist_eq s.machine proposal
    rw [heq]
    exact .of_phase (outcomes_store asked) rfl rfl
  | relay => exact .of_phase (by simp [Outcome.ofEffect?]) rfl rfl
  | expose turn fresh two =>
    refine ⟨[], by rw [Step.outcomes_forwardAll, List.append_nil], ?_⟩
    rw [Step.forwardAll_machine]
    refine .nothing rfl ?_ ?_ <;> cases hphase : s.machine.phase <;>
      simp [Machine.IsOpen, Machine.outcomesLeft, Phase.exposed, hphase]
  | @lock c phase counted quorum =>
    refine ⟨[.finished s.machine.epoch (some c) (some c)], by simp [Outcome.ofEffect?],
      Machine.Leaves.handOver ?_ (.inl phase) ?_ ?_ _ _⟩
    · rfl
    · simp [Machine.IsOpen]
    · simp [Machine.outcomesLeft, phase]
  | @pass c phase counted quorum locked lock =>
    refine ⟨[.finished s.machine.epoch (some c) locked], by simp [Outcome.ofEffect?],
      Machine.Leaves.handOver ?_ (.inr phase) ?_ ?_ _ _⟩
    · rfl
    · simp [Machine.IsOpen]
    · simp [Machine.outcomesLeft, phase]
  | decide phase locked names =>
    refine ⟨[], (List.append_nil _).symm, .nothing rfl ?_ ?_⟩
    · simp [Machine.IsOpen, phase]
    · simp [Machine.outcomesLeft, phase]
  | @commit key proposal phase decided found linked =>
    refine ⟨[.decided s.machine.epoch proposal.block], by simp [Outcome.ofEffect?, Step.enter],
      rfl, ?_, ?_, ?_, ?_⟩
    · simp [Machine.IsOpen, Step.enter]
    · simp [Machine.IsOpen, phase]
    · simp
    · simp [Machine.outcomesLeft, Step.enter, phase]
  | cast => exact .of_phase (by simp [Host.cast, Outcome.ofEffect?]) rfl rfl
  | leave phase quorum =>
    refine ⟨[], by simp [Outcome.ofEffect?, Step.enter], .nothing rfl ?_ ?_⟩
    · simp [Machine.IsOpen, Step.enter, phase]
    · simp [Machine.outcomesLeft, Step.enter, phase]
  | abandon phase quorum =>
    refine ⟨[], (List.append_nil _).symm, .nothing rfl ?_ ?_⟩
    · simp [Machine.IsOpen, Step.enter, phase]
    · simp [Machine.outcomesLeft, Step.enter]
  | accuse => exact .of_phase (by simp [Outcome.ofEffect?]) rfl rfl
  | quit phase =>
    refine ⟨[.finished s.machine.epoch s.machine.valid s.machine.locked],
      by simp [Outcome.ofEffect?, Step.enter], Machine.Leaves.handOver ?_ (.inr phase) ?_ ?_ _ _⟩
    · rfl
    · simp [Machine.IsOpen, Step.enter]
    · simp [Machine.outcomesLeft, Step.enter, phase]
  | split faulty done =>
    exact .of_phase (outcomes_proposeSplit done) (by rw [proposeSplit_machine done])
      (by rw [proposeSplit_machine done])
  | count | follow | blame | expire => exact .of_phase rfl rfl rfl

theorem Moves.leaves (moves : p.Moves heard s s') : Between s s' := by
  induction moves with
  | refl => exact .of_phase rfl rfl rfl
  | tail _ move ih =>
    obtain ⟨xs, hxs, hleaves⟩ := ih
    obtain ⟨ys, hys, hleaves'⟩ := move.leaves
    exact ⟨xs ++ ys, by rw [hys, hxs, List.append_assoc], hleaves.trans hleaves'⟩

/-! ### Calls -/

/-- What a call on `m` came to, as far as there is something to settle: an epoch that has not
started is not started by it, and leaves nothing. -/
structure Left (m : Machine) (s' : Step σ) : Prop where
  leaves : m.Leaves s'.machine s'.toContext.outcomes
  waits : m.phase = .inactive → s'.machine.phase = .inactive ∧ s'.toContext.outcomes = []

theorem Left.of_moves {m : Machine} {w : σ} (started : m.phase ≠ .inactive)
    (h : p.Moves heard ⟨.start w, m⟩ s') : Left m s' := by
  obtain ⟨left, houtcomes, hleaves⟩ := Moves.leaves h
  rw [Context.outcomes_start, List.nil_append] at houtcomes
  exact ⟨houtcomes ▸ hleaves, fun inactive => absurd inactive started⟩

theorem Left.idle (m : Machine) (w : σ) : Left m ⟨.start w, m⟩ := by
  refine ⟨?_, fun inactive => ⟨inactive, Context.outcomes_start w⟩⟩
  rw [Context.outcomes_start]
  exact .of_phase rfl rfl

theorem receive_leaves {m : Machine} {w : σ} (hm : p.Sound heard m) {x : Message}
    (admitted : x.CarriesOnly heard) (h : p.receive x ⟨.start w, m⟩ = .ok s') : Left m s' := by
  by_cases hphase : m.phase = .inactive
  · obtain rfl := receive_inactive (s := ⟨.start w, m⟩) hphase h
    obtain ⟨pending, heq, -⟩ := keep_eq x ⟨.start w, m⟩
    rw [heq]
    exact ⟨by rw [Context.outcomes_start]; exact .of_phase rfl rfl,
      fun inactive => ⟨inactive, Context.outcomes_start w⟩⟩
  · exact .of_moves hphase (receive_moves ⟨hphase, hm⟩ admitted h)

theorem expire_leaves {m : Machine} {w : σ} {t : Timeout}
    (h : p.expire t ⟨.start w, m⟩ = .ok s') : Left m s' := by
  by_cases hphase : m.phase = .inactive
  · obtain rfl := expire_idle (s := ⟨.start w, m⟩) (.inl hphase) h
    exact .idle m w
  · have hmoves : p.Moves (fun _ => True) ⟨.start w, m⟩ s' := expire_moves h
    exact .of_moves hphase hmoves

/-- **A start of an epoch**, which is open at first; without messages that waited nothing is left to
settle. -/
theorem start_leaves {m : Machine} {w : σ} (hm : p.Sound (fun _ => True) m)
    (inactive : m.phase = .inactive) {valid locked : Option Certificate}
    (h : p.start valid locked ⟨.start w, m⟩ = .ok s') :
    (m.opened valid locked).Leaves s'.machine s'.toContext.outcomes ∧
      s'.machine.phase ≠ .inactive ∧ (m.pending = [] → s'.toContext.outcomes = []) := by
  rcases start_cases (s := ⟨.start w, m⟩) inactive h with ⟨-, rfl⟩ | ⟨b, hb, hrest⟩
  · rw [Context.outcomes_start]
    exact ⟨.of_phase rfl rfl, by simp [Machine.opened], fun _ => rfl⟩
  · have hrunning := hm.begun (fun _ _ _ _ => trivial) (fun _ _ _ _ => trivial) hb
    obtain ⟨timers, heq⟩ := begin_machine hb
    have hbegun : b.toContext.outcomes = [] :=
      (outcomes_begin hb).trans (Context.outcomes_start w)
    have hmoves := start_moves hrunning hm.pending hrest
    obtain ⟨left, houtcomes, hleaves⟩ := Moves.leaves hmoves
    have houtcomes : s'.toContext.outcomes = left := by rw [houtcomes, hbegun, List.nil_append]
    refine ⟨?_, (Moves.running hmoves hrunning).started, ?_⟩
    · have hopened : (m.opened valid locked).Leaves { b.machine with pending := [] } [] :=
        .of_phase (by simp [heq]) (by simp [heq])
      rw [houtcomes]
      exact hopened.trans hleaves
    · intro hpending
      rw [hpending] at hrest
      cases hrest
      exact hbegun

/-! ### Decisions -/

/-- A decision is not taken, or waits for the block and its ancestors, or is left to settle. -/
def Concluded (s : Step σ) : Prop := s.machine.decision = none ∨ s.machine.phase = .commit ∨
  ∃ b, Outcome.decided s.machine.epoch b ∈ s.toContext.outcomes

/-- What takes no decision and does not end an epoch that has taken one. -/
theorem Concluded.between (h : Concluded s) (between : Between s s')
    (decision : s'.machine.decision = s.machine.decision)
    (stays : s.machine.phase = .commit → s'.machine.phase = .commit) : Concluded s' := by
  obtain ⟨left, houtcomes, hleaves⟩ := between
  rcases h with hnone | hcommit | ⟨b, hb⟩
  · exact .inl (decision.trans hnone)
  · exact .inr (.inl (stays hcommit))
  · refine .inr (.inr ⟨b, ?_⟩)
    rw [houtcomes, hleaves.epoch]
    exact List.mem_append_left _ hb

theorem Move.concluded (move : p.Move heard s s') (h : Concluded s) : Concluded s' := by
  have hbetween := move.leaves
  cases move with
  | @enlist proposal =>
    obtain ⟨proposals, heq⟩ := enlist_eq s.machine proposal
    rw [heq] at hbetween ⊢
    exact h.between hbetween rfl fun hphase => hphase
  | expose =>
    refine h.between hbetween ?_ fun hphase => ?_
    · rw [Step.forwardAll_machine]
    · rw [Step.forwardAll_machine]
      simp [hphase, Phase.exposed]
  | decide => exact .inr (.inl rfl)
  | @commit key proposal =>
    exact .inr (.inr ⟨proposal.block, by simp [Outcome.ofEffect?, Step.enter]⟩)
  | lock phase | pass phase | leave phase | abandon phase | quit phase =>
    refine h.between hbetween rfl fun hphase => ?_
    rw [phase] at hphase
    cases hphase
  | split faulty done =>
    have hmachine := proposeSplit_machine done
    exact h.between hbetween (by rw [hmachine]) fun hphase => by rw [hmachine, hphase]
  | schedule | refuse | relay | count | cast | follow | blame | expire | accuse =>
    exact h.between hbetween rfl fun hphase => hphase

theorem Moves.concluded (moves : p.Moves heard s s') (h : Concluded s) : Concluded s' := by
  induction moves with
  | refl => exact h
  | tail _ move ih => exact move.concluded ih

/-- What a call on `m` came to, with the host in state `w` before. -/
structure Ran (p : Host σ) (w : σ) (m : Machine) (s' : Step σ) : Prop where
  sane : p.Sane (fun _ => True) w m s'
  left : Left m s'
  started : m.phase ≠ .inactive → s'.machine.phase ≠ .inactive
  concluded : m.decision = none ∨ m.phase = .commit → Concluded s'

theorem Ran.of_moves {m : Machine} {w : σ} (sane : p.Sane (fun _ => True) w m s')
    (left : Left m s') (hm : p.Running (fun _ => True) ⟨.start w, m⟩)
    (h : p.Moves (fun _ => True) ⟨.start w, m⟩ s') : p.Ran w m s' :=
  ⟨sane, left, fun _ => (Moves.running h hm).started,
    fun hm => Moves.concluded h (hm.imp_right .inl)⟩

theorem receive_ran {m : Machine} {w : σ} (hm : p.Sound (fun _ => True) m) {x : Message}
    (h : p.receive x ⟨.start w, m⟩ = .ok s') : p.Ran w m s' := by
  have hsane := receive_sane hm (fun _ _ => trivial) h
  have hleft := receive_leaves hm (fun _ _ => trivial) h
  by_cases hphase : m.phase = .inactive
  · refine ⟨hsane, hleft, fun hstarted => absurd hphase hstarted, ?_⟩
    obtain rfl := receive_inactive (s := ⟨.start w, m⟩) hphase h
    obtain ⟨pending, heq, -⟩ := keep_eq x ⟨.start w, m⟩
    rw [heq]
    exact fun hm => hm.imp_right .inl
  · exact .of_moves hsane hleft ⟨hphase, hm⟩ (receive_moves ⟨hphase, hm⟩ (fun _ _ => trivial) h)

theorem expire_ran {m : Machine} {w : σ} (hm : p.Sound (fun _ => True) m) {t : Timeout}
    (h : p.expire t ⟨.start w, m⟩ = .ok s') : p.Ran w m s' := by
  have hsane := expire_sane hm h
  have hleft := expire_leaves h
  by_cases hphase : m.phase = .inactive
  · refine ⟨hsane, hleft, fun hstarted => absurd hphase hstarted, ?_⟩
    obtain rfl := expire_idle (s := ⟨.start w, m⟩) (.inl hphase) h
    exact fun hm => hm.imp_right .inl
  · exact .of_moves hsane hleft ⟨hphase, hm⟩ (expire_moves h)

/-- A start of an epoch that has taken no decision. -/
theorem start_concluded {m : Machine} {w : σ} (hm : p.Sound (fun _ => True) m)
    (inactive : m.phase = .inactive) (undecided : m.decision = none)
    {valid locked : Option Certificate} (h : p.start valid locked ⟨.start w, m⟩ = .ok s') :
    Concluded s' := by
  rcases start_cases (s := ⟨.start w, m⟩) inactive h with ⟨-, rfl⟩ | ⟨b, hb, hrest⟩
  · exact .inl undecided
  · have hrunning := hm.begun (fun _ _ _ _ => trivial) (fun _ _ _ _ => trivial) hb
    obtain ⟨timers, heq⟩ := begin_machine hb
    refine Moves.concluded (start_moves hrunning hm.pending hrest) (.inl ?_)
    rw [heq]
    exact undecided

end Host

end EpochConsensus
