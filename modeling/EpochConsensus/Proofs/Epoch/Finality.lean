import EpochConsensus.Proofs.Epoch.Advances
import EpochConsensus.Proofs.Epoch.Decisions

/-! # Finishing is final

An honest epoch hands its certificates over at most once, as it locks or as it ends without a lock,
and holds just these from then on; it decides at most once, and not before (`Course.run_concludes`).

The log of an epoch shows this by the phase that the epoch is in (`Course.Concluding`), and every
step that an epoch advances by keeps it so (`Course.Advance.orderly`).
-/
namespace EpochConsensus.Course

variable {σ : Type} {p : Host σ} {c c' : Course σ} {log : List (Entry σ)} {s s' : Step σ}

/-! ### The log of an honest epoch -/

/-- Nothing on the log is handed over or decided. -/
def Uneventful (log : List (Entry σ)) : Prop :=
  ∀ x ∈ log, ∀ f ∈ x.effect?, f.isFinish = false ∧ f.isDecision = false

/-- How many decisions are on the log. -/
def decisions (log : List (Entry σ)) : Nat := log.countP fun x => x.effect?.any Effect.isDecision

/-- The log of an epoch that was started with these certificates. -/
def StartedWith (start : Carried) (log : List (Entry σ)) : Prop :=
  ∃ m, .called (.start start.valid start.locked) m ∈ log ∧ m.phase = .inactive

/-- The log of an epoch that has handed over once, and before any decision; it has held what it
handed over while `after` was put on the log. -/
structure HandsOver (e : Epoch) (h : Carried) (after log : List (Entry σ)) : Prop where
  split : ∃ before w m, log = before ++ .did ⟨.finish e h.valid h.locked, w, some m⟩ :: after ∧
    Uneventful before ∧ m.carried = h
  final : ∀ x ∈ after, (∀ f ∈ x.effect?, f.isFinish = false) ∧ ∀ m ∈ x.machine?, m.carried = h

/-- The log of an honest epoch, by the phase that the epoch is in. -/
structure Concluding (e : Epoch) (c : Course σ) : Prop where
  early : c.machine.phase = .inactive ∨ c.machine.phase = .ready ∨
    c.machine.phase = .epochChange → Uneventful c.log
  held : c.machine.phase = .locked ∨ c.machine.phase = .commit →
    ∃ after, HandsOver e c.machine.carried after c.log ∧ decisions after = 0
  ended : c.machine.phase = .finished → Uneventful c.log ∨
    ∃ after, HandsOver e c.machine.carried after c.log ∧ decisions after ≤ 1

variable {e : Epoch} {new : List (Entry σ)}

theorem Uneventful.append (h : Uneventful log) (h' : Uneventful new) : Uneventful (log ++ new) :=
  fun x hx => (List.mem_append.mp hx).elim (h x) (h' x)

theorem decisions_append (log new : List (Entry σ)) :
    decisions (log ++ new) = decisions log + decisions new := List.countP_append

theorem Uneventful.decisions (h : Uneventful log) : decisions log = 0 := by
  refine List.countP_eq_zero.mpr fun x hx => ?_
  cases heffect : x.effect? with
  | none => simp
  | some f => simp [(h x hx f heffect).2]

theorem HandsOver.append {h : Carried} {after : List (Entry σ)} (hands : HandsOver e h after log)
    (final : ∀ x ∈ new, (∀ f ∈ x.effect?, f.isFinish = false) ∧ ∀ m ∈ x.machine?, m.carried = h) :
    HandsOver e h (after ++ new) (log ++ new) := by
  obtain ⟨before, w, m, rfl, hbefore, hm⟩ := hands.split
  refine ⟨⟨before, w, m, by simp, hbefore, hm⟩, ?_⟩
  exact fun x hx => (List.mem_append.mp hx).elim (hands.final x) (final x)

/-- Whatever its phase: an epoch has settled nothing, or handed over once and decided once at
most. -/
theorem Concluding.cases (h : Concluding e c) : Uneventful c.log ∨
    ∃ after, HandsOver e c.machine.carried after c.log ∧ decisions after ≤ 1 := by
  cases hphase : c.machine.phase with
  | inactive => exact .inl (h.early (.inl hphase))
  | ready => exact .inl (h.early (.inr (.inl hphase)))
  | epochChange => exact .inl (h.early (.inr (.inr hphase)))
  | locked =>
    obtain ⟨after, hands, hnone⟩ := h.held (.inl hphase)
    exact .inr ⟨after, hands, by omega⟩
  | commit =>
    obtain ⟨after, hands, hnone⟩ := h.held (.inr hphase)
    exact .inr ⟨after, hands, by omega⟩
  | finished => exact h.ended hphase

/-- The entries settle nothing, and the epoch holds `h` in all of them. -/
def Staying (h : Carried) (new : List (Entry σ)) : Prop :=
  Uneventful new ∧ ∀ x ∈ new, ∀ m ∈ x.machine?, m.carried = h

theorem staying_did {h : Carried} {xs : List (Moment σ)} (stays : ∀ x ∈ xs, Moment.Stays h x) :
    Staying h (xs.map .did) := by
  refine ⟨List.forall_mem_map.mpr fun x hx => ?_, List.forall_mem_map.mpr fun x hx => ?_⟩
  · rintro _ ⟨⟩
    exact ⟨(stays x hx).unfinished, (stays x hx).undecided⟩
  · exact (stays x hx).holds

/-- Nothing is settled, and the epoch keeps what it holds. -/
theorem Concluding.stay (h : Concluding e c) {m : Machine} (carried : m.carried = c.machine.carried)
    (staying : Staying c.machine.carried new)
    (phase : c.machine.phase.Pauses m.phase ∨ m.phase = .finished ∨
      c.machine.phase = .inactive ∧ m.phase = .ready) :
    Concluding e ⟨m, c.log ++ new⟩ := by
  have hfinal : ∀ x ∈ new, (∀ f ∈ x.effect?, f.isFinish = false) ∧
      ∀ m ∈ x.machine?, m.carried = c.machine.carried :=
    fun x hx => ⟨fun f hf => (staying.1 x hx f hf).1, staying.2 x hx⟩
  refine ⟨fun hp => ?_, fun hp => ?_, fun hp => ?_⟩
  · refine (h.early ?_).append staying.1
    rcases phase with (hq | ⟨hq, -⟩ | ⟨hq, hq' | hq'⟩) | hq | ⟨hq, -⟩ <;> simp_all
  · have hheld : c.machine.phase = .locked ∨ c.machine.phase = .commit := by
      rcases phase with (hq | ⟨hq, hq'⟩ | ⟨hq, -⟩) | hq | ⟨hq, hq'⟩ <;> simp_all
    obtain ⟨after, hands, hnone⟩ := h.held hheld
    refine ⟨after ++ new, carried ▸ hands.append hfinal, ?_⟩
    rw [decisions_append, hnone, staying.1.decisions]
  · refine h.cases.imp (·.append staying.1) ?_
    rintro ⟨after, hands, honce⟩
    refine ⟨after ++ new, carried ▸ hands.append hfinal, ?_⟩
    rwa [decisions_append, staying.1.decisions]

theorem Concluding.finish (h : Concluding e (within log s)) (epoch : s.machine.epoch = e)
    (finishes : s.Finishes s') : Concluding e (within log s') := by
  obtain ⟨xs, hxs, hstays⟩ := finishes.moments
  have hbefore : Uneventful (within log s).log := by
    refine h.early ?_
    rcases finishes.phase with ⟨hp, -⟩ | ⟨hp, -⟩
    · exact .inr (.inl hp)
    · exact .inr (.inr hp)
  have hands : HandsOver e s'.machine.carried [] (within log s').log := by
    refine ⟨⟨(within log s).log ++ xs.map .did, s.world, s'.machine, ?_,
      hbefore.append (staying_did hstays).1, rfl⟩, by simp⟩
    simp [within, hxs, epoch, Machine.carried]
  refine ⟨fun hp => ?_, fun _ => ⟨[], hands, rfl⟩, fun _ => .inr ⟨[], hands, Nat.zero_le _⟩⟩
  rcases finishes.phase with ⟨-, hp'⟩ | ⟨-, hp'⟩ <;> simp [within, hp'] at hp

theorem Concluding.decide (h : Concluding e (within log s)) (decides : s.Decides s') :
    Concluding e (within log s') := by
  obtain ⟨hphase, hphase'⟩ := decides.phase
  obtain ⟨b, hmoments⟩ := decides.moments
  obtain ⟨after, hands, hnone⟩ := h.held (.inr hphase)
  have hcarried : (within log s).machine.carried = s'.machine.carried := decides.carried.symm
  rw [hcarried] at hands
  rw [within_append hmoments]
  refine ⟨by simp [hphase'], by simp [hphase'], fun _ => .inr ⟨_, hands.append ?_, ?_⟩⟩
  · simp [Entry.effect?, Entry.machine?, Effect.isFinish]
  · rw [decisions_append, hnone]
    exact Nat.le_of_eq rfl

/-! ### Runs -/

/-- Where the certificates come from that an honest epoch holds. -/
inductive Origin (p : Host σ) (c : Course σ) : Prop
  | waiting (h : p.Waiting (fun _ => True) c.machine) : Origin p c
  | started {start : Carried} (asked : StartedWith start c.log)
      (h : p.Faithful (fun _ => True) start c.machine) : Origin p c
  /-- The epoch was stopped before it was started. -/
  | stopped (phase : c.machine.phase = .finished) (uneventful : Uneventful c.log) : Origin p c

/-- What every step of an honest epoch keeps. -/
structure Orderly (p : Host σ) (e : Epoch) (c : Course σ) : Prop where
  epoch : c.machine.epoch = e
  honest : c.machine.policy.isHonest = true
  concluding : Concluding e c
  origin : Origin p c

theorem StartedWith.append {start : Carried} (h : StartedWith start log) :
    StartedWith start (log ++ new) := by
  obtain ⟨m, hm, hphase⟩ := h
  exact ⟨m, List.mem_append_left _ hm, hphase⟩

theorem Origin.append (h : Origin p c) (uneventful : Uneventful new) :
    Origin p ⟨c.machine, c.log ++ new⟩ := by
  cases h with
  | waiting h => exact .waiting h
  | started asked h => exact .started asked.append h
  | stopped phase h => exact .stopped phase (h.append uneventful)

/-- Kept messages and timers do not matter. -/
theorem Origin.aside (h : Origin p c) (pending : List Message) (timers : Timers) :
    Origin p ⟨{ c.machine with pending, timers }, c.log⟩ := by
  have hsound : p.Sound (fun _ => True) c.machine →
      p.Sound (fun _ => True) { c.machine with pending, timers } :=
    fun hs => { hs with pending := fun _ _ _ _ => trivial }
  cases h with
  | waiting h => exact .waiting ⟨h.inactive, h.honest, hsound h.sound⟩
  | started asked h =>
    exact .started asked ⟨h.started, h.honest, hsound h.sound, h.initial, { h.holding with }⟩
  | stopped phase h => exact .stopped phase h

theorem Orderly.move (h : Orderly p e (within log s)) (started : s.machine.phase ≠ .inactive)
    (move : p.Move (fun _ => True) s s') : Orderly p e (within log s') := by
  have hfixed := move.fixed
  have hsettles := move.settles h.honest
  refine ⟨hfixed.epoch.trans h.epoch, hfixed.policy ▸ h.honest, ?_, ?_⟩
  · rcases hsettles with ⟨stays, pauses⟩ | finishes | decides
    · obtain ⟨xs, hxs, hstays⟩ := stays.moments
      rw [within_append hxs]
      exact h.concluding.stay stays.carried (staying_did hstays) (.inl pauses)
    · exact h.concluding.finish h.epoch finishes
    · exact h.concluding.decide decides
  · cases h.origin with
    | waiting hw => exact absurd hw.inactive started
    | started asked hf =>
      have hgrows : ∃ xs, s'.moments.toList = s.moments.toList ++ xs := by
        rcases hsettles with ⟨⟨-, xs, hxs, -⟩, -⟩ | ⟨-, xs, hxs, -⟩ | ⟨-, -, b, hxs⟩
        · exact ⟨xs, hxs⟩
        · exact ⟨_, hxs.trans (List.append_assoc _ _ _)⟩
        · exact ⟨_, hxs⟩
      obtain ⟨xs, hxs⟩ := hgrows
      rw [within_append hxs]
      exact .started asked.append (move.faithful hf)
    | stopped phase hu =>
      -- nothing is settled any more in a finished epoch
      have phase : s.machine.phase = .finished := phase
      rcases hsettles with ⟨stays, pauses⟩ | ⟨hp, -⟩ | ⟨⟨hp, -⟩, -, -⟩
      · obtain ⟨xs, hxs, hstays⟩ := stays.moments
        rw [within_append hxs]
        refine .stopped ?_ (hu.append (staying_did hstays).1)
        rcases pauses with hp | ⟨hp, -⟩ | ⟨hp, -⟩
        · exact hp.trans phase
        all_goals exact absurd (hp.symm.trans phase) (by decide)
      · simp [phase] at hp
      · simp [phase] at hp

/-- **Every step keeps an honest epoch in order.** -/
theorem Advance.orderly (advance : Advance p c c') (h : Orderly p e c) : Orderly p e c' := by
  cases advance with
  | call _ x =>
    have hstaying : Staying c.machine.carried [.called (σ := σ) x c.machine] := by
      simp [Staying, Uneventful, Entry.effect?, Entry.machine?]
    exact ⟨h.epoch, h.honest, h.concluding.stay rfl hstaying (.inl (.inl rfl)),
      h.origin.append hstaying.1⟩
  | keep _ pending =>
    refine ⟨h.epoch, h.honest, ?_, h.origin.aside pending c.machine.timers⟩
    rw [← List.append_nil c.log]
    exact h.concluding.stay rfl (by simp [Staying, Uneventful]) (.inl (.inl rfl))
  | @opens _ valid locked phase last =>
    refine ⟨h.epoch, h.honest, ⟨fun _ => h.concluding.early (.inl phase), ?_, ?_⟩, ?_⟩
    · simp [Machine.opened]
    · simp [Machine.opened]
    · cases h.origin with
      | waiting hw =>
        have hasked : StartedWith ⟨valid, locked⟩ c.log :=
          ⟨c.machine, List.mem_of_getLast? last, phase⟩
        exact .started hasked
          (hw.sound.faithful_opened hw.honest (fun _ _ _ _ => trivial) (fun _ _ _ _ => trivial))
      | started _ hf => exact absurd phase hf.started
      | stopped hp => exact absurd (phase.symm.trans hp) (by decide)
  | @begins log s s' phase begun =>
    have hstays := Host.begin_stays h.honest begun
    obtain ⟨timers, hmachine⟩ := Host.begin_machine begun
    obtain ⟨xs, hxs, stays⟩ := hstays.moments
    rw [within_append hxs, hmachine]
    refine ⟨h.epoch, h.honest, h.concluding.stay rfl (staying_did stays) (.inl (.inl rfl)), ?_⟩
    exact (h.origin.aside s.machine.pending timers).append (staying_did stays).1
  | move started move => exact h.move started move
  | stops last =>
    refine ⟨h.epoch, h.honest, ?_, ?_⟩
    · rw [← List.append_nil c.log]
      exact h.concluding.stay rfl (by simp [Staying, Uneventful]) (.inr (.inl rfl))
    · cases h.origin with
      | waiting hw => exact .stopped rfl (h.concluding.early (.inl hw.inactive))
      | started asked hf =>
        refine .started asked ⟨by simp [Machine.stop], hf.honest, { hf.sound with }, hf.initial,
          hf.holding.handover, ?_, ?_⟩ <;> simp [Machine.stop]
      | stopped _ hu => exact .stopped rfl hu

theorem orderly_create {policy : Policy} (honest : policy.isHonest = true) (e : Epoch)
    (pendingLimit : Nat) : Orderly p e (create (σ := σ) e policy pendingLimit) where
  epoch := rfl
  honest := honest
  concluding := ⟨by simp [create, Uneventful], by simp [create, Machine.create],
    by simp [create, Machine.create]⟩
  origin := .waiting ⟨rfl, honest, sound_create e policy pendingLimit⟩

theorem Advances.orderly (advances : Advances p c c') (h : Orderly p e c) :
    Relation.ReflTransGen (fun a b => Advance p a b ∧ Paced a b) c c' ∧ Orderly p e c' := by
  induction advances with
  | refl => exact ⟨.refl, h⟩
  | tail _ advance ih =>
    exact ⟨ih.1.tail ⟨advance, advance.paced ih.2.honest⟩, advance.orderly ih.2⟩

/-- **Finishing is final.**  At any point `c'` of a run of an honest epoch, in the middle of a call
as well, the epoch has gone through its phases in order, each step at most one phase on, but for a
stop.  Either it has neither handed over nor decided, or it has handed over once, and it has held
exactly that ever since: a new certificate of a majority, locked or beside the lock that it was
started with, or the two certificates that it was started with.  It has decided at most once, and
after handing over. -/
theorem run_concludes {policy : Policy} {pendingLimit : Nat} {calls : List (Call × σ)}
    (honest : policy.isHonest = true)
    (ran : (create e policy pendingLimit).run p calls = .ok c) (point : Advances p c c') :
    Relation.ReflTransGen (fun a b => Advance p a b ∧ Paced a b)
        (create e policy pendingLimit) c' ∧
      (Uneventful c'.log ∨ ∃ start after, StartedWith start c'.log ∧
        p.Handover (fun _ => True) start e c'.machine.carried ∧
        HandsOver e c'.machine.carried after c'.log ∧ decisions after ≤ 1) := by
  have hrun := run_advances (sound_create e policy pendingLimit) ran
  obtain ⟨hpath, horderly⟩ :=
    Advances.orderly (hrun.trans point) (orderly_create honest e pendingLimit)
  refine ⟨hpath, ?_⟩
  rcases horderly.concluding.cases with huneventful | ⟨after, hands, honce⟩
  · exact .inl huneventful
  cases horderly.origin with
  | waiting hw => exact .inl (horderly.concluding.early (.inl hw.inactive))
  | @started start asked hf =>
    exact .inr ⟨start, after, asked, horderly.epoch ▸ hf.holding.handover, hands, honce⟩
  | stopped _ huneventful => exact .inl huneventful

/-- The run of the only process of a system hands over and then decides. -/
theorem run_concludes_lone :
    let p := Script.host 0 1 none fun _ => 0
    ∃ c, (create 0 ⟨.honest, false⟩ 1).run p loneCalls = .ok c ∧ decisions c.log = 1 ∧
      ∃ start after, StartedWith start c.log ∧
        p.Handover (fun _ => True) start 0 c.machine.carried ∧
        HandsOver 0 c.machine.carried after c.log ∧ decisions after ≤ 1 := by
  intro p
  obtain ⟨c, ran, hdecisions⟩ : ∃ c, (create 0 ⟨.honest, false⟩ 1).run p loneCalls = .ok c ∧
      decisions c.log = 1 := exists_of_toOption (by decide +kernel)
  refine ⟨c, ran, hdecisions, ?_⟩
  rcases (run_concludes rfl ran .refl).2 with huneventful | hconcluded
  · rw [huneventful.decisions] at hdecisions
    cases hdecisions
  · exact hconcluded

end EpochConsensus.Course
