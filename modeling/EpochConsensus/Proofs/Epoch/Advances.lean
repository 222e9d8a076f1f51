import EpochConsensus.Proofs.Epoch.Runs

/-! # How an epoch advances

An epoch goes through its phases one after the other (`Phase.Next`), and only a stop cuts this
short.  A run advances in single steps (`Course.Advance`), the moves of the epoch among them, so the
phase can be followed through the middle of a call (`Course.run_advances`, `Course.Advance.paced`).

Of the moves of an honest epoch most keep its certificates and settle nothing (`Step.Stays`), three
hand them over (`Step.Finishes`), and one decides (`Step.Decides`).
-/
namespace EpochConsensus

variable {σ : Type}

/-- The phases that may follow one another, if the epoch is not stopped. -/
inductive Phase.Next : Phase → Phase → Prop
  | start : Next .inactive .ready
  | lock : Next .ready .locked
  | leave : Next .ready .epochChange
  | decide : Next .locked .commit
  | abandon : Next .locked .finished
  | pass : Next .epochChange .finished
  | commit : Next .commit .finished

/-- What becomes of a phase while nothing is handed over or decided. -/
def Phase.Pauses (a b : Phase) : Prop :=
  b = a ∨ a = .ready ∧ b = .epochChange ∨ a = .locked ∧ (b = .commit ∨ b = .finished)

/-- The certificates for the next epoch are handed over. -/
def Effect.isFinish : Effect → Bool
  | finish _ _ _ => true
  | _ => false

/-- What an epoch holds for the next one. -/
def Machine.carried (m : Machine) : Carried := ⟨m.valid, m.locked⟩

/-! ### What moves settle -/

/-- Neither a hand-over nor a decision, by an epoch that held `h`. -/
structure Moment.Stays (h : Carried) (x : Moment σ) : Prop where
  unfinished : x.effect.isFinish = false
  undecided : x.effect.isDecision = false
  holds : ∀ m ∈ x.machine, m.carried = h

namespace Step

/-- The epoch keeps what it holds and settles nothing. -/
structure Stays (s s' : Step σ) : Prop where
  carried : s'.machine.carried = s.machine.carried
  moments : ∃ xs, s'.moments.toList = s.moments.toList ++ xs ∧
    ∀ x ∈ xs, Moment.Stays s.machine.carried x

/-- The epoch hands over what it holds. -/
structure Finishes (s s' : Step σ) : Prop where
  phase : s.machine.phase = .ready ∧ s'.machine.phase = .locked ∨
    s.machine.phase = .epochChange ∧ s'.machine.phase = .finished
  moments : ∃ xs, s'.moments.toList = s.moments.toList ++ xs ++
      [⟨.finish s.machine.epoch s'.machine.valid s'.machine.locked, s.world, some s'.machine⟩] ∧
    ∀ x ∈ xs, Moment.Stays s'.machine.carried x

/-- The epoch decides. -/
structure Decides (s s' : Step σ) : Prop where
  phase : s.machine.phase = .commit ∧ s'.machine.phase = .finished
  carried : s'.machine.carried = s.machine.carried
  moments : ∃ b, s'.moments.toList = s.moments.toList ++
    [⟨.decide s.machine.epoch b, s.world, some s'.machine⟩]

namespace Stays

variable {s s' s'' : Step σ}

theorem refl (s : Step σ) : s.Stays s := ⟨rfl, [], by simp, by simp⟩

theorem trans (h : s.Stays s') (h' : s'.Stays s'') : s.Stays s'' := by
  obtain ⟨xs, hxs, hstays⟩ := h.moments
  obtain ⟨ys, hys, hstays'⟩ := h'.moments
  refine ⟨h'.carried.trans h.carried, xs ++ ys, by rw [hys, hxs, List.append_assoc], ?_⟩
  intro x hx
  rcases List.mem_append.mp hx with hx | hx
  · exact hstays x hx
  · exact h.carried ▸ hstays' x hx

/-- A change of anything but the certificates. -/
theorem of_carried {m : Machine} (h : m.carried = s.machine.carried) :
    s.Stays { s with machine := m } := ⟨h, [], by simp, by simp⟩

theorem emit {e : Effect} (unfinished : e.isFinish = false) (undecided : e.isDecision = false) :
    s.Stays (s.emit e) := by
  refine ⟨rfl, [_], Array.toList_push, ?_⟩
  intro x hx
  obtain rfl := List.mem_singleton.mp hx
  exact ⟨unfinished, undecided, by rintro m ⟨⟩; rfl⟩

/-- A question to the host. -/
theorem ask {world : σ} {e : Effect} (unfinished : e.isFinish = false)
    (undecided : e.isDecision = false) :
    s.Stays { s with toContext := { s.toContext with world }.emit e } := by
  refine ⟨rfl, [_], Array.toList_push, ?_⟩
  intro x hx
  obtain rfl := List.mem_singleton.mp hx
  exact ⟨unfinished, undecided, by rintro m ⟨⟩⟩

theorem forwardAll (bs : List Ballot) : s.Stays (s.forwardAll bs) := by
  induction bs generalizing s with
  | nil => exact refl s
  | cons b bs ih => exact (emit (e := .forward b.toMessage) rfl rfl).trans ih

end Stays

/-- An epoch that was ready or had failed ends with the certificates it passes on. -/
theorem Finishes.afterQuitEpoch {s : Step σ} {m : Machine} {c : Certificate}
    (phase : s.machine.phase = .ready ∧ m.phase = .locked ∨
      s.machine.phase = .epochChange ∧ m.phase = .finished) :
    s.Finishes (({ s with machine := m } : Step σ).emit (.broadcast (.quitEpoch c)) |>.emit
      (.finish s.machine.epoch m.valid m.locked)) := by
  refine ⟨phase, [⟨.broadcast (.quitEpoch c), s.world, some m⟩], by simp, ?_⟩
  intro x hx
  obtain rfl := List.mem_singleton.mp hx
  exact ⟨rfl, rfl, by rintro m ⟨⟩; rfl⟩

end Step

namespace Host

variable {p : Host σ} {heard : Endorsement → Prop} {s s' : Step σ}

theorem Asks.stays {c : Context σ} (h : p.Asks s.toContext c) :
    s.Stays { s with toContext := c } := by
  rcases h with rfl | ⟨t, rfl⟩
  · exact .refl s
  · exact .ask rfl rfl

theorem store_stays {b : Block} {added : Bool} {c : Context σ}
    (h : p.store s.toContext b = .ok (added, c)) : s.Stays { s with toContext := c } := by
  unfold store at h
  simp only [pure, Except.pure] at h
  obtain ⟨⟨answer, world⟩, -, h⟩ := bind_eq_ok.mp h
  cases h
  exact .ask rfl rfl

theorem propose_stays (h : p.propose s = .ok s') : s.Stays s' := by
  unfold propose at h
  simp only [pure, Except.pure] at h
  have hasked : s.Stays { s with toContext := (p.takeValue s.toContext).2 } := .ask rfl rfl
  split at h
  · cases h
    exact hasked
  · obtain ⟨b, -, h⟩ := bind_eq_ok.mp h
    cases h
    exact hasked.trans (.emit rfl rfl)

/-- An honest epoch that begins proposes or waits. -/
theorem begin_stays (honest : s.machine.policy.isHonest = true) (h : p.begin s = .ok s') :
    s.Stays s' := by
  unfold begin at h
  simp only [pure, Except.pure] at h
  obtain ⟨q, -, h⟩ := bind_eq_ok.mp h
  split at h
  · unfold lead at h
    rw [Policy.splits_eq_false honest] at h
    exact propose_stays h
  · cases h
    obtain ⟨c, timers, asked, heq⟩ := p.schedule_eq .propose s
    rw [heq]
    exact (Asks.stays asked).trans (.of_carried rfl)

/-- **A move of an honest epoch settles nothing, hands over or decides.** -/
theorem Move.settles (move : p.Move heard s s') (honest : s.machine.policy.isHonest = true) :
    (s.Stays s' ∧ s.machine.phase.Pauses s'.machine.phase) ∨ s.Finishes s' ∨ s.Decides s' := by
  cases move with
  | schedule timers asked => exact .inl ⟨(Asks.stays asked).trans (.of_carried rfl), .inl rfl⟩
  | refuse asked => exact .inl ⟨store_stays asked, .inl rfl⟩
  | @enlist proposal _ fresh valid admitted asked =>
    obtain ⟨proposals, heq⟩ := enlist_eq s.machine proposal
    rw [heq]
    exact .inl ⟨(store_stays asked).trans (.of_carried rfl), .inl rfl⟩
  | relay => exact .inl ⟨.emit rfl rfl, .inl rfl⟩
  | count => exact .inl ⟨.of_carried rfl, .inl rfl⟩
  | expose =>
    refine .inl ⟨.trans ?_ (.forwardAll _), ?_⟩
    · exact .of_carried rfl
    · rw [Step.forwardAll_machine]
      cases hphase : s.machine.phase <;> simp [Phase.Pauses, Phase.exposed]
  | lock phase => exact .inr (.inl (.afterQuitEpoch (.inl ⟨phase, rfl⟩)))
  | pass phase => exact .inr (.inl (.afterQuitEpoch (.inr ⟨phase, rfl⟩)))
  | decide phase => exact .inl ⟨.of_carried rfl, .inr (.inr ⟨phase, .inl rfl⟩)⟩
  | commit phase => exact .inr (.inr ⟨⟨phase, rfl⟩, rfl, _, Array.toList_push⟩)
  | cast =>
    exact .inl ⟨.trans (.emit rfl rfl) (.trans (.emit rfl rfl) (.of_carried rfl)), .inl rfl⟩
  | follow faulty =>
    rw [honest] at faulty
    cases faulty
  | blame => exact .inl ⟨.of_carried rfl, .inl rfl⟩
  | leave phase =>
    refine .inl ⟨.trans ?_ (.emit rfl rfl), .inr (.inl ⟨phase, rfl⟩)⟩
    exact .of_carried rfl
  | abandon phase => exact .inl ⟨.of_carried rfl, .inr (.inr ⟨phase, .inr rfl⟩)⟩
  | expire => exact .inl ⟨.of_carried rfl, .inl rfl⟩
  | accuse => exact .inl ⟨.emit rfl rfl, .inl rfl⟩
  | quit phase => exact .inr (.inl ⟨.inr ⟨phase, rfl⟩, [], by simp [Step.enter], by simp⟩)
  | split faulty =>
    rw [Policy.splits_eq_false honest] at faulty
    cases faulty

end Host

/-! ### How a course advances -/

namespace Course

variable (p : Host σ)

/-- One step in the course of an epoch. -/
inductive Advance : Course σ → Course σ → Prop
  | call (c : Course σ) (call : Call) :
      Advance c ⟨c.machine, c.log ++ [.called call c.machine]⟩
  /-- A message is kept for the start, or those that waited are taken. -/
  | keep (c : Course σ) (pending : List Message) :
      Advance c ⟨{ c.machine with pending := pending }, c.log⟩
  | opens {c : Course σ} {valid locked : Option Certificate} (phase : c.machine.phase = .inactive)
      (last : c.log.getLast? = some (.called (.start valid locked) c.machine)) :
      Advance c ⟨c.machine.opened valid locked, c.log⟩
  | begins {log : List (Entry σ)} {s s' : Step σ} (phase : s.machine.phase = .ready)
      (begun : p.begin s = .ok s') : Advance (within log s) (within log s')
  | move {log : List (Entry σ)} {s s' : Step σ} (started : s.machine.phase ≠ .inactive)
      (move : p.Move (fun _ => True) s s') : Advance (within log s) (within log s')
  | stops {c : Course σ} (last : c.log.getLast? = some (.called .stop c.machine)) :
      Advance c ⟨c.machine.stop, c.log⟩

/-- Any number of steps. -/
abbrev Advances : Course σ → Course σ → Prop := Relation.ReflTransGen (Advance p)

/-- The phase stays or goes on to one that may follow it, or the epoch is stopped. -/
def Paced (c c' : Course σ) : Prop :=
  c'.machine.phase = c.machine.phase ∨ c.machine.phase.Next c'.machine.phase ∨
    c.log.getLast? = some (.called .stop c.machine) ∧ c'.machine.phase = .finished

variable {p} {c c' : Course σ} {log : List (Entry σ)} {s s' : Step σ}

theorem advances_of_moves (hs : p.Running (fun _ => True) s)
    (moves : p.Moves (fun _ => True) s s') : Advances p (within log s) (within log s') := by
  induction moves with
  | refl => exact .refl
  | tail moves move ih => exact ih.tail (.move (Host.Moves.running moves hs).started move)

theorem advances_of_start {m : Machine} {w : σ} (hm : p.Sound (fun _ => True) m)
    {valid locked : Option Certificate}
    (last : log.getLast? = some (.called (.start valid locked) m))
    (h : p.start valid locked ⟨.start w, m⟩ = .ok s') : Advances p ⟨m, log⟩ (within log s') := by
  by_cases phase : m.phase = .inactive
  · have hopens : Advance p ⟨m, log⟩ (within log ⟨.start w, m.opened valid locked⟩) := by
      rw [within_start]
      exact .opens (c := ⟨m, log⟩) phase last
    refine .head hopens ?_
    rcases Host.start_cases (s := ⟨.start w, m⟩) phase h with ⟨-, rfl⟩ | ⟨b, begun, hrest⟩
    · exact .single (.keep _ [])
    · have hrunning := hm.begun (fun _ _ _ _ => trivial) (fun _ _ _ _ => trivial) begun
      exact .head (.begins rfl begun) (.head (.keep _ [])
        (advances_of_moves hrunning (Host.start_moves hrunning hm.pending hrest)))
  · unfold Host.start at h
    rw [if_pos (by simp [Machine.started, phase])] at h
    cases h
    rw [within_start]

/-- **Every call advances the course by such steps.** -/
theorem take_advances (hc : p.Sound (fun _ => True) c.machine) {call : Call} {w : σ}
    (h : c.take p call w = .ok c') : Advances p c c' := by
  obtain ⟨s, hs, rfl⟩ := take_eq_ok.mp h
  refine .head (.call c call) ?_
  -- a started epoch goes on by moves
  have hmoves : c.machine.phase ≠ .inactive → p.Moves (fun _ => True) ⟨.start w, c.machine⟩ s →
      Advances p ⟨c.machine, c.log ++ [.called call c.machine]⟩
        (within (c.log ++ [.called call c.machine]) s) := by
    intro started moves
    have hadvances : Advances p (within (c.log ++ [.called call c.machine]) ⟨.start w, c.machine⟩)
        (within (c.log ++ [.called call c.machine]) s) := advances_of_moves ⟨started, hc⟩ moves
    rwa [within_start] at hadvances
  cases call with
  | start valid locked => exact advances_of_start hc (by simp) hs
  | receive x =>
    by_cases phase : c.machine.phase = .inactive
    · obtain rfl := Host.receive_inactive (s := ⟨.start w, c.machine⟩) phase hs
      obtain ⟨pending, heq, -⟩ := Host.keep_eq x ⟨.start w, c.machine⟩
      rw [heq, within_start]
      exact .single (.keep _ pending)
    · exact hmoves phase (Host.receive_moves ⟨phase, hc⟩ (fun _ _ => trivial) hs)
  | expire t =>
    by_cases phase : c.machine.phase = .inactive
    · obtain rfl := Host.expire_idle (s := ⟨.start w, c.machine⟩) (.inl phase) hs
      rw [within_start]
    · exact hmoves phase (Host.expire_moves hs)
  | stop =>
    cases hs
    rw [within_start]
    exact .single (.stops (c := ⟨c.machine, _⟩) (by simp))

/-- **So does every run of calls.** -/
theorem run_advances {calls : List (Call × σ)} (hc : p.Sound (fun _ => True) c.machine)
    (h : c.run p calls = .ok c') : Advances p c c' :=
  (run_keeps (motive := Advances p c)
    (fun _ _ _ _ hd hpath taken => hpath.trans (take_advances hd taken)) hc h .refl).1

/-- **A step of an honest epoch keeps the order of the phases.** -/
theorem Advance.paced (advance : Advance p c c') (honest : c.machine.policy.isHonest = true) :
    Paced c c' := by
  cases advance with
  | call | keep => exact .inl rfl
  | opens phase => exact .inr (.inl (phase ▸ .start))
  | begins phase begun =>
    obtain ⟨timers, heq⟩ := Host.begin_machine begun
    exact .inl (by simp only [within, heq])
  | move started move =>
    rcases move.settles honest with ⟨-, hp | ⟨hp, hp'⟩ | ⟨hp, hp' | hp'⟩⟩ |
      ⟨⟨hp, hp'⟩ | ⟨hp, hp'⟩, -⟩ | ⟨⟨hp, hp'⟩, -, -⟩
    · exact .inl hp
    all_goals
      refine .inr (.inl ?_)
      simp only [within, hp, hp']
      constructor
  | stops last => exact .inr (.inr ⟨last, rfl⟩)

end Course

end EpochConsensus
