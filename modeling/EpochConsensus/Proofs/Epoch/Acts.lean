import EpochConsensus.Proofs.Epoch.Paths

/-! # What a call leaves on record

Every moment that a call records is an answer of the host or an `Act` of the epoch: a vote is for
the proposal that the epoch then was ready to vote for, a decision is for a recorded proposal, what
the epoch finishes with is what it then holds.  `Logged` collects this for a whole call, together
with any property of epochs that moves keep; `Moves.logged` is the run lemma.
-/
namespace EpochConsensus

/-- The host was asked something. -/
def Effect.IsQuestion : Effect → Prop
  | .request _ _ | .takeValue _ | .addBlock _ _ => True
  | _ => False

namespace Host

variable {σ : Type} (p : Host σ) (heard : Endorsement → Prop)

/-! ### Answers -/

/-- The host answers a question. -/
inductive Answers : σ → σ → Prop
  | accepts (t : Timeout) (w : σ) : Answers w (p.accepts t w).2
  | nextValue (w : σ) : Answers w (p.nextValue w).2
  | addBlock {b : Block} {w w' : σ} {added : Bool} (h : p.addBlock b w = .ok (added, w')) :
      Answers w w'

/-- The host answers any number of questions. -/
abbrev Evolves : σ → σ → Prop := Relation.ReflTransGen p.Answers

/-! ### Acts -/

/-- What an epoch does, by its state and that of its host at the time. -/
inductive Act (m : Machine) (world : σ) : Effect → Prop
  | forward (x : Message) : Act m world (.forward x)
  /-- The proposer proposes on top of the highest certified block that it was started with. -/
  | propose {b : Block} {value : Bytes} (phase : m.phase = .ready)
      (turn : p.proposer m.epoch = .ok p.id) (next : nextBlock m.valid value = .ok b) :
      Act m world (.broadcast (.propose (p.proposal m.epoch b m.valid)))
  | vote {proposal : Proposal}
      (votable : m.policy.isHonest = true → p.Votable proposal m world) :
      Act m world (.broadcast (.vote (p.ownVote m.epoch proposal)))
  | accuse : Act m world (.broadcast (.silence ⟨m.epoch, p.id, .empty⟩))
  | quitEpoch (c : Certificate) : Act m world (.broadcast (.quitEpoch c))
  | send (faulty : m.policy.splits = true) (x : Message) (recipients : List ProcessId) :
      Act m world (.send x recipients)
  | decide {proposal : Proposal} (recorded : proposal ∈ m.proposals.toList) :
      Act m world (.decide m.epoch proposal.block)
  | finish : Act m world (.finish m.epoch m.valid m.locked)

/-- A moment on record since the host was in state `w`; the epochs that acted are all `good`. -/
inductive Recorded (w : σ) (good : Machine → Prop) : Moment σ → Prop
  | question {e : Effect} {world : σ} (evolved : p.Evolves w world) (h : e.IsQuestion) :
      Recorded w good ⟨e, world, none⟩
  | act {e : Effect} {world : σ} {m : Machine} (evolved : p.Evolves w world) (hm : good m)
      (h : p.Act m world e) : Recorded w good ⟨e, world, some m⟩

/-- What a call has done since the host was in state `w`, all of it on record. -/
structure Logged (w : σ) (good : Machine → Prop) (c : Context σ) : Prop where
  world : p.Evolves w c.world
  moments : ∀ x ∈ c.moments, p.Recorded w good x

variable {p heard} {w : σ} {good : Machine → Prop}

namespace Logged

theorem start : p.Logged w good (.start w) := ⟨.refl, by simp [Context.start]⟩

/-- Asking the host puts the question on record. -/
theorem ask {c : Context σ} (h : p.Logged w good c) {world : σ} (answer : p.Answers c.world world)
    {e : Effect} (he : e.IsQuestion) : p.Logged w good ({ c with world }.emit e) := by
  have hworld : p.Evolves w world := h.world.tail answer
  refine ⟨hworld, ?_⟩
  intro x hx
  rcases Array.mem_push.mp hx with hold | rfl
  · exact h.moments x hold
  · exact .question hworld he

theorem request {c : Context σ} (h : p.Logged w good c) (t : Timeout) :
    p.Logged w good (p.request c t).2 := h.ask (.accepts t c.world) trivial

theorem takeValue {c : Context σ} (h : p.Logged w good c) : p.Logged w good (p.takeValue c).2 :=
  h.ask (.nextValue c.world) trivial

theorem store {c c' : Context σ} {b : Block} {added : Bool} (h : p.Logged w good c)
    (done : p.store c b = .ok (added, c')) : p.Logged w good c' := by
  unfold Host.store at done
  simp only [pure, Except.pure] at done
  obtain ⟨⟨answer, world⟩, hadd, done⟩ := bind_eq_ok.mp done
  cases done
  exact h.ask (.addBlock hadd) trivial

theorem asks {c c' : Context σ} (h : p.Logged w good c) (asked : p.Asks c c') :
    p.Logged w good c' := by
  rcases asked with rfl | ⟨t, rfl⟩
  · exact h
  · exact h.request t

variable {s s' : Step σ}

/-- An act of a good epoch goes on record. -/
theorem emit (h : p.Logged w good s.toContext) (hm : good s.machine) {e : Effect}
    (act : p.Act s.machine s.world e) : p.Logged w good (s.emit e).toContext := by
  refine ⟨h.world, ?_⟩
  intro x hx
  rcases Array.mem_push.mp hx with hold | rfl
  · exact h.moments x hold
  · exact .act h.world hm act

theorem forwardAll (h : p.Logged w good s.toContext) (hm : good s.machine) (bs : List Ballot) :
    p.Logged w good (s.forwardAll bs).toContext := by
  induction bs generalizing s with
  | nil => exact h
  | cons b bs ih => exact ih (h.emit hm (.forward _)) hm

theorem proposeSplit (h : p.Logged w good s.toContext) (hm : good s.machine)
    (faulty : s.machine.policy.splits = true) (done : p.proposeSplit s = .ok s') :
    p.Logged w good s'.toContext := by
  unfold Host.proposeSplit at done
  simp only [pure, Except.pure] at done
  have hasked := h.takeValue.takeValue
  split at done
  · simp only [bind_eq_ok] at done
    obtain ⟨a, -, b, -, done⟩ := done
    cases done
    refine Logged.emit (Logged.emit (s := { s with toContext := _ }) hasked hm ?_) hm ?_
    · exact .send faulty _ _
    · exact .send faulty _ _
  · cases done
    exact hasked

end Logged

variable {s s' : Step σ}

/-- A move of an epoch that stays good goes on record. -/
theorem Move.logged (move : p.Move heard s s') (h : p.Logged w good s.toContext)
    (hm : good s.machine) (hm' : good s'.machine) : p.Logged w good s'.toContext := by
  cases move with
  | schedule timers asked => exact h.asks asked
  | refuse asked => exact h.store asked
  | enlist fresh valid admitted asked => exact h.store asked
  | relay => exact h.emit hm (.forward _)
  | count => exact h
  | expose =>
    rw [Step.forwardAll_machine] at hm'
    refine Logged.forwardAll ?_ hm' _
    exact h
  | lock | pass =>
    -- both effects are of the epoch after the move, which is why that has to be good, too
    refine Logged.emit (Logged.emit ?_ ?_ (.quitEpoch _)) ?_ .finish
    · exact h
    · exact hm'
    · exact hm'
  | decide => exact h
  | @commit key proposal phase decided found =>
    refine Logged.emit ?_ ?_ (.decide (s.machine.proposals.mem_find? found).1)
    · exact h
    · exact hm'
  | cast admitted votable => exact (h.emit hm (.forward _)).emit hm (.vote votable)
  | follow => exact h
  | blame => exact h
  | leave =>
    refine Logged.emit ?_ ?_ (.quitEpoch _)
    · exact h
    · exact hm'
  | abandon => exact h
  | expire => exact h
  | accuse => exact h.emit hm .accuse
  | quit =>
    refine Logged.emit ?_ ?_ .finish
    · exact h
    · exact hm'
  | split faulty done => exact h.proposeSplit hm faulty done

/-- **All that a path of moves does goes on record**, together with what moves keep. -/
theorem Moves.logged (keeps : ∀ s s', p.Move heard s s' → good s.machine → good s'.machine)
    (moves : p.Moves heard s s') (h : p.Logged w good s.toContext) (hm : good s.machine) :
    p.Logged w good s'.toContext ∧ good s'.machine := by
  induction moves with
  | refl => exact ⟨h, hm⟩
  | tail _ move ih =>
    have hm' := keeps _ _ move ih.2
    exact ⟨move.logged ih.1 ih.2 hm', hm'⟩

/-! ### Beginning -/

theorem propose_logged (h : p.Logged w good s.toContext) (hm : good s.machine)
    (phase : s.machine.phase = .ready) (turn : p.proposer s.machine.epoch = .ok p.id)
    (done : p.propose s = .ok s') : p.Logged w good s'.toContext := by
  unfold propose at done
  simp only [pure, Except.pure] at done
  have hasked := h.takeValue
  split at done
  · cases done
    exact hasked
  · obtain ⟨b, next, done⟩ := bind_eq_ok.mp done
    cases done
    exact Logged.emit (s := { s with toContext := _ }) hasked hm (.propose phase turn next)

theorem schedule_logged (h : p.Logged w good s.toContext) (kind : TimeoutKind) :
    p.Logged w good (p.schedule kind s).toContext := by
  obtain ⟨c, timers, asked, heq⟩ := p.schedule_eq kind s
  rw [heq]
  exact h.asks asked

/-- All that an epoch does as it begins goes on record. -/
theorem begin_logged (h : p.Logged w good s.toContext) (hm : good s.machine)
    (phase : s.machine.phase = .ready) (done : p.begin s = .ok s') :
    p.Logged w good s'.toContext := by
  unfold begin at done
  simp only [pure, Except.pure] at done
  obtain ⟨q, turn, done⟩ := bind_eq_ok.mp done
  by_cases hq : q = p.id
  · subst hq
    rw [if_pos rfl] at done
    unfold lead at done
    simp only [pure, Except.pure] at done
    split at done
    · exact propose_logged h hm phase turn done
    · rename_i hsplits
      obtain ⟨follows, -, done⟩ := bind_eq_ok.mp done
      split at done
      · exact h.proposeSplit hm (by simpa using hsplits) done
      · cases done
        exact schedule_logged h _
  · rw [if_neg hq] at done
    cases done
    exact schedule_logged h _

end Host

end EpochConsensus
