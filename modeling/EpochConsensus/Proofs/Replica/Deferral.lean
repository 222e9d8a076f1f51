import EpochConsensus.Proofs.Replica.Attendance

/-! # Starts that wait

A start that waits for room in the window goes ahead after a decision, and the window drains on
decisions only.  While it waits, every live epoch is in its slot and closed: it is on its lock, or
has decided, or has ended without a decision.  As long as one of them has not ended a decision may
still come; once all have ended the replica is `Stuck`, and no call changes anything any more
(`run_defers`).
-/
namespace EpochConsensus

namespace Turn

variable {τ : Type} {services : Services τ} {t : Turn τ} {e : Epoch} {m : Machine}

/-! ### Stuck replicas -/

/-- Every live epoch of a full window has ended, and nothing is left to settle. -/
structure Stuck (t : Turn τ) : Prop where
  placed : t.replica.window.Placed
  slots : 0 < t.replica.window.capacity
  begun : t.replica.window.lastEpoch.isSome = true
  full : t.replica.window.isFull = true
  ended : ∀ e, t.replica.window.isLive e = true →
    ∃ m, t.replica.window.Holds (.consensus m) ∧ m.epoch = e ∧ m.phase = .finished
  quiet : t.outcomes = []

/-- Every slot belongs to a live epoch that has ended. -/
theorem Stuck.slot (h : t.Stuck) (i : Fin t.replica.window.capacity) :
    ∃ m, t.replica.window.slots.get i = some (.consensus m) ∧
      t.replica.window.isLive m.epoch = true ∧ m.phase = .finished := by
  obtain ⟨e, hlive, hslot⟩ := Window.exists_live_of_full h.full i
  obtain ⟨m, ⟨j, hj⟩, rfl, hphase⟩ := h.ended e hlive
  obtain rfl : j = i := Fin.ext ((h.placed j _ hj).trans hslot)
  exact ⟨m, hj, hlive, hphase⟩

/-- In a stuck replica what answers for an epoch has ended, if there is anything. -/
theorem Stuck.found (h : t.Stuck) (e : Epoch) :
    (t.replica.window.claim? e = .ok none ∧ t.replica.window.instance? e = .ok none) ∨
      ∃ m, t.replica.window.claim? e = .ok (some (.consensus m)) ∧
        t.replica.window.instance? e = .ok (some (.consensus m)) ∧
        t.replica.window.Holds (.consensus m) ∧ m.phase = .finished := by
  obtain ⟨i, hi⟩ : ∃ i, t.replica.window.index e = .ok i := by
    unfold Window.index
    rw [dif_pos h.slots]
    exact ⟨_, rfl⟩
  obtain ⟨m, hm, hlive, hphase⟩ := h.slot i
  unfold Window.claim? Window.instance?
  simp only [hi, hm, bind, Except.bind, pure, Except.pure]
  by_cases hepoch : m.epoch = e
  · exact .inr ⟨m, by simp [Instance.epoch, hepoch], by simp [Instance.epoch, hepoch], ⟨i, hm⟩,
      hphase⟩
  · refine .inl ⟨?_, by simp [Instance.epoch, hepoch]⟩
    simp [Instance.epoch, hepoch, hlive]

/-- An epoch that has ended does nothing in a call. -/
theorem Stuck.call (h : t.Stuck) (held : t.replica.window.Holds (.consensus m))
    {act : Instance → Context (Chain × τ) → Except Fault (Instance × Context (Chain × τ))}
    (idle : act (.consensus m) t.context = .ok (.consensus m, t.context)) :
    t.call services (some (.consensus m)) act = .ok t := by
  have hsame : t.absorb services t.replica.window t.context = t := by
    simp [absorb, context, Context.start, Context.effects]
  exact call_some.mpr ⟨_, _, _, idle, Window.put_of_holds h.placed held, hsame.symm⟩

/-- **A stuck replica** stays as it is. -/
theorem Stuck.take (h : t.Stuck) (input : Input) : t.take services input = .ok t := by
  have hsame : { t with outcomes := [] } = t := by rw [← h.quiet]
  cases input with
  | bootstrap =>
    unfold Turn.take bootstrap
    rw [hsame]
    simp only [h.begun, if_true, pure, Except.pure]
  | message x =>
    show t.handleMessage services x = .ok t
    unfold handleMessage
    simp only [hsame]
    cases (x.epoch? <|> t.replica.window.lastEpoch) with
    | none => rfl
    | some e =>
      rcases h.found e with ⟨hnone, -⟩ | ⟨m, hfound, -, hheld, hphase⟩
      · simp only [hnone, bind, Except.bind, Turn.call, settle_of_quiet h.quiet]
      · simp only [hfound, bind, Except.bind]
        rw [h.call hheld]
        · exact settle_of_quiet h.quiet
        · simp only [Instance.receive, Instance.ofStep, bind, Except.bind, pure, Except.pure]
          rw [Host.receive_of_finished (s := ⟨t.context, m⟩) hphase]
  | timeout timeout =>
    show t.handleTimeout services timeout = .ok t
    unfold handleTimeout
    simp only [hsame]
    rcases h.found timeout.epoch with ⟨-, hnone⟩ | ⟨m, -, hfound, hheld, hphase⟩
    · simp only [hnone, bind, Except.bind, Turn.call, settle_of_quiet h.quiet]
    · simp only [hfound, bind, Except.bind]
      rw [h.call hheld]
      · exact settle_of_quiet h.quiet
      · simp only [Instance.expire, Instance.ofStep, bind, Except.bind, pure, Except.pure]
        rw [Host.expire_of_idle (s := ⟨t.context, m⟩) (.inr hphase)]

theorem Stuck.run (h : t.Stuck) (inputs : List Input) : t.run services inputs = .ok t := by
  induction inputs with
  | nil => rfl
  | cons input inputs ih =>
    unfold Turn.run at ih ⊢
    rw [List.foldlM_cons, h.take input]
    exact ih

/-! ### Runs -/

/-- While a start waits every live epoch has begun. -/
theorem Rests.begun_of_waits (h : t.Rests services) (waits : t.replica.deferred.isSome = true)
    (live : t.replica.window.isLive e = true) : t.replica.window.Begun e := by
  have hfull := h.atRest waits
  rcases h.placid with ⟨-, hroom⟩ | ⟨hkept, last, hlast, hstage⟩
  · rw [hfull] at hroom
    cases hroom
  · cases hstage with
    | waiting handed =>
      have hturn : e.toNat < Window.upTo t.replica.window.lastEpoch :=
        of_decide_eq_true (Bool.and_eq_true_iff.mp live).2
      rw [hlast] at hturn
      exact (hkept.handed last handed).of_le
        (UInt64.le_iff_toNat_le.mpr (Nat.le_of_lt_succ hturn))
    | running _ _ _ _ _ _ free | ended _ _ free | cutOff _ free =>
      rw [free] at waits
      cases waits

/-- While a start waits every live epoch is closed. -/
theorem Rests.closed_of_waits (h : t.Rests services) (waits : t.replica.deferred.isSome = true)
    (live : t.replica.window.isLive e = true) :
    ∃ m, t.replica.window.Holds (.consensus m) ∧ m.epoch = e ∧
      (m.phase = .locked ∨ m.phase = .commit ∨ m.phase = .finished ∧ m.decision = none) := by
  have hundecided := (Bool.and_eq_true_iff.mp live).1
  obtain ⟨m, hm, rfl, hstarted⟩ := h.attended.seated e hundecided (h.begun_of_waits waits live)
  refine ⟨m, hm, rfl, ?_⟩
  have hclosed : ¬ m.IsOpen := fun hopen => by
    rw [(h.attended.opened m hm hopen).2.1] at waits
    cases waits
  have hconcluded := h.attended.concluded m hm hundecided
  rw [h.quiet] at hconcluded
  cases hphase : m.phase with
  | inactive => exact absurd hphase hstarted
  | ready => exact absurd (.inl hphase) hclosed
  | epochChange => exact absurd (.inr hphase) hclosed
  | locked => exact .inl rfl
  | commit => exact .inr (.inl rfl)
  | finished => exact .inr (.inr ⟨rfl, by simpa [hphase] using hconcluded⟩)

/-- **Starts that wait.**  While a start is deferred the window is full, and every live epoch is in
its slot: it is on its lock, has decided and waits for the block, or has ended without a decision.
One of them at least has not ended, so that it may still decide; or all have ended, and then no call
changes anything any more. -/
theorem run_defers {id : ProcessId} {count : Nat} {config : Config} {r : Replica} {world : τ}
    {inputs : List Input} (created : Replica.create id count config = .ok r)
    (sync : config.model = .sync)
    (ran : (Turn.start r world).run services inputs = .ok t)
    (waits : t.replica.deferred.isSome = true) :
    t.replica.window.isFull = true ∧
      (∀ e, t.replica.window.isLive e = true →
        ∃ m, t.replica.window.instance? e = .ok (some (.consensus m)) ∧
          (m.phase = .locked ∨ m.phase = .commit ∨ m.phase = .finished ∧ m.decision = none)) ∧
      ((∃ e m, t.replica.window.isLive e = true ∧
          t.replica.window.instance? e = .ok (some (.consensus m)) ∧
          (m.phase = .locked ∨ m.phase = .commit)) ∨
        ∀ later, t.run services later = .ok t) := by
  have h : t.Rests services := ((rests_start created sync world).run ran).1
  have hplaced := h.attended.kept.delivering.placed
  have hfull := h.atRest waits
  refine ⟨hfull, ?_, ?_⟩
  · intro e live
    obtain ⟨m, hm, rfl, hphase⟩ := h.closed_of_waits waits live
    exact ⟨m, Window.instance_of_holds hplaced hm, hphase⟩
  · by_cases hopen : ∃ m, t.replica.window.Holds (.consensus m) ∧
        t.replica.window.isLive m.epoch = true ∧ (m.phase = .locked ∨ m.phase = .commit)
    · obtain ⟨m, hm, live, hphase⟩ := hopen
      exact .inl ⟨m.epoch, m, live, Window.instance_of_holds hplaced hm, hphase⟩
    · refine .inr fun later => Stuck.run ⟨hplaced, h.attended.slots, ?_, hfull, ?_, h.quiet⟩ later
      · rcases h.placid with ⟨-, hroom⟩ | ⟨-, last, hlast, -⟩
        · rw [hfull] at hroom
          cases hroom
        · rw [hlast]
          rfl
      · intro e live
        obtain ⟨m, hm, rfl, hphase⟩ := h.closed_of_waits waits live
        refine ⟨m, hm, rfl, ?_⟩
        rcases hphase with hlocked | hcommit | ⟨hfinished, -⟩
        · exact absurd ⟨m, hm, live, .inl hlocked⟩ hopen
        · exact absurd ⟨m, hm, live, .inr hcommit⟩ hopen
        · exact hfinished

/-! ### A window of one slot -/

def narrowConfig : Config := { Config.default with maxActiveEpochs := 1, blockchainSize := 2 }

/-- Process 1 of three. -/
def narrowReplica : Replica where
  id := 1
  count := 3
  config := narrowConfig
  chain := .empty 2 Nat.two_pos
  window := .ofConfig narrowConfig 1
  deferred := none

theorem create_narrow : Replica.create 1 3 narrowConfig = .ok narrowReplica := rfl

/-- The proposer is silent: a majority blames it, and the epoch is left. -/
def narrowInputs : List Input :=
  [.bootstrap, .message (.silence ⟨0, 1, ⟨.fill 64 1⟩⟩), .message (.silence ⟨0, 2, ⟨.fill 64 2⟩⟩),
    .timeout ⟨0, .quitEpoch, 400⟩]

/-- A start waits then, and the first epoch, which is the last one, has ended. -/
theorem run_narrow : ∃ t, (Turn.start narrowReplica ()).run soloServices narrowInputs = .ok t ∧
    t.replica.deferred.isSome = true ∧ ∀ e inst, t.replica.window.isLive e = true →
      t.replica.window.instance? e = .ok (some inst) → inst.finished = true := by
  obtain ⟨t, hran, hstate⟩ : ∃ t,
      (Turn.start narrowReplica ()).run soloServices narrowInputs = .ok t ∧
        (t.replica.deferred.isSome, t.replica.window.lastEpoch,
          (t.replica.window.instance? 0).toOption.map fun found => found.all Instance.finished) =
        (true, some 0, some true) := exists_of_toOption (by decide +kernel)
  simp only [Prod.mk.injEq] at hstate
  obtain ⟨hwaits, hlast, hended⟩ := hstate
  refine ⟨t, hran, hwaits, fun e inst live found => ?_⟩
  have hturn : e.toNat < Window.upTo t.replica.window.lastEpoch :=
    of_decide_eq_true (Bool.and_eq_true_iff.mp live).2
  rw [hlast] at hturn
  obtain rfl : e = 0 := UInt64.toNat_inj.mp (Nat.lt_one_iff.mp hturn)
  simpa [found, Except.toOption] using hended

/-- The replica is stuck then. -/
theorem run_defers_narrow :
    ∃ t, (Turn.start narrowReplica ()).run soloServices narrowInputs = .ok t ∧
      t.replica.deferred.isSome = true ∧ ∀ later, t.run soloServices later = .ok t := by
  obtain ⟨t, hran, hwaits, hended⟩ := run_narrow
  refine ⟨t, hran, hwaits, (run_defers create_narrow rfl hran hwaits).2.2.resolve_left ?_⟩
  rintro ⟨e, m, live, found, hphase⟩
  have hfinished : m.phase = .finished := of_decide_eq_true (hended e _ live found)
  rcases hphase with hphase | hphase <;> rw [hfinished] at hphase <;> cases hphase

/-- While a start waits no live epoch need be one that can still decide. -/
theorem waits_for_ended : Replica.create 1 3 narrowConfig = .ok narrowReplica ∧
    ∃ t, (Turn.start narrowReplica ()).run soloServices narrowInputs = .ok t ∧
      t.replica.deferred.isSome = true ∧
      ¬ ∃ e inst, t.replica.window.isLive e = true ∧
        t.replica.window.instance? e = .ok (some inst) ∧ inst.finished = false := by
  obtain ⟨t, hran, hwaits, hended⟩ := run_narrow
  refine ⟨create_narrow, t, hran, hwaits, ?_⟩
  rintro ⟨e, inst, live, found, hunfinished⟩
  rw [hended e inst live found] at hunfinished
  cases hunfinished

end Turn

end EpochConsensus
