import EpochConsensus.Proofs.Replica.Stages

/-! # One epoch after the other

A replica never loses the end of its last epoch.  Settling one outcome leads from one `Stage` of the
last epoch to another (`Passing.onDecided`, `Passing.onFinished`), and it makes `unsettled` smaller,
so a call ends with no outcome left (`Passing.settle`).  Between two calls, then, the last epoch
runs, or the next start waits for room in the window, or the limit is reached, and only one of these
is the case (`run_succession`).
-/
namespace EpochConsensus

namespace Turn

variable {τ : Type} {services : Services τ} {t t' : Turn τ} {d e : Epoch} {m : Machine}
  {w : Window} {b : Block} {o : Outcome} {rest : List Outcome}

/-! ### Settling -/

theorem Kept.drop (h : t.Kept services) (queue : t.outcomes = o :: rest) :
    Kept services { t with outcomes := rest } :=
  { h with
    delivering := { h.delivering with }
    queued := fun x hx => h.queued x (queue ▸ List.mem_cons_of_mem o hx) }

theorem unsettled_drop (queue : t.outcomes = o :: rest) :
    unsettled { t with outcomes := rest } < t.unsettled := by
  simp [unsettled, queue]

/-- Only an end of the last epoch matters to it. -/
theorem Stage.drop (h : t.Stage e) (queue : t.outcomes = o :: rest)
    (other : ∀ valid locked, o ≠ .finished e valid locked) :
    Stage { t with outcomes := rest } e := by
  cases h with
  | running held epoch opened undecided quiet keeps free =>
    exact .running held epoch opened undecided
      (fun x hx => quiet x (queue ▸ List.mem_cons_of_mem o hx)) keeps free
  | @ended valid locked queued handed free =>
    rw [queue] at queued
    exact .ended ((List.mem_cons.mp queued).resolve_left fun heq => other _ _ heq.symm) handed free
  | waiting handed waits full => exact .waiting handed waits full
  | cutOff limit free => exact .cutOff limit free

theorem Kept.deliver (h : t.Kept services) (begun : t.replica.window.Begun d) {chain : Chain}
    {committed : List Block} (new : t.replica.window.finishEpoch d = .ok (w, true))
    (done : t.replica.chain.commit b = .ok (chain, committed)) :
    (t.deliver d w chain committed).Kept services := by
  have hdelivering := h.delivering.deliver new done
  have hheld : ∀ x, w.Holds x →
      ∃ m, x = .consensus m ∧ (m.phase = .inactive ∨ t.replica.window.Begun m.epoch) := by
    intro x hx
    obtain ⟨y, hy, rfl⟩ := Window.holds_finishEpoch new hx
    obtain ⟨m, rfl, hm⟩ := h.held y hy
    unfold Window.close
    split
    · -- the decision closes no epoch but such as have begun
      rename_i hclosed
      have hle : m.epoch ≤ d := of_decide_eq_true (Bool.and_eq_true_iff.mp hclosed).2
      exact ⟨m.stop, rfl, .inr (begun.of_le hle)⟩
    · exact ⟨m, rfl, hm⟩
  obtain ⟨-, rfl⟩ := Window.finishEpoch_eq new
  refine ⟨hdelivering, h.sync, hheld, h.queued, h.handed, ?_⟩
  intro e he
  cases he
  exact begun

/-- A new decision leaves the last epoch where it stands, unless the next start waits for it. -/
theorem Stage.deliver (h : t.Stage e) (last : t.replica.window.lastEpoch = some e)
    (queue : t.outcomes = .decided d b :: rest) (begun : t.replica.window.Begun d)
    (free : t.replica.deferred = none) {chain : Chain} {committed : List Block}
    (new : t.replica.window.finishEpoch d = .ok (w, true)) :
    ({ t with outcomes := rest }.deliver d w chain committed).Stage e := by
  have hw := (Window.finishEpoch_eq new).2
  cases h with
  | @running m held epoch opened undecided quiet keeps free =>
    subst epoch
    -- nothing of the last epoch is on the queue, so the decision is on an earlier one
    have hne : d ≠ m.epoch := quiet (.decided d b) (queue ▸ List.mem_cons_self)
    have hlt : d.toNat < m.epoch.toNat := by
      have hturn := begun.1
      rw [last] at hturn
      exact Nat.lt_of_le_of_ne (Nat.le_of_lt_succ hturn) fun heq => hne (UInt64.toNat_inj.mp heq)
    have hstays : t.replica.window.close d (.consensus m) = .consensus m :=
      Window.close_of_lt (UInt64.lt_iff_toNat_lt.mpr hlt)
    refine .running (hstays ▸ held.finishEpoch new) rfl opened ?_ ?_ keeps free
    · show w.isUndecided m.epoch = true
      rw [hw]
      exact decide_eq_true hlt
    · exact fun x hx => quiet x (queue ▸ List.mem_cons_of_mem _ hx)
  | ended queued handed free =>
    rw [queue] at queued
    exact .ended ((List.mem_cons.mp queued).resolve_left Outcome.noConfusion) handed free
  | waiting handed waits full =>
    rw [free] at waits
    cases waits
  | cutOff limit free =>
    refine .cutOff ?_ free
    show w.CutsOff e
    rw [hw]
    exact limit

/-- **A decision** is settled. -/
theorem Passing.onDecided (h : t.Passing services) (queue : t.outcomes = .decided d b :: rest)
    (settled : { t with outcomes := rest }.onDecided services d b = .ok t') :
    t'.Passing services ∧ t'.unsettled < t.unsettled := by
  have hdropped := h.kept.drop queue
  obtain ⟨e, last, hstage⟩ := h.stage
  rcases onDecided_cases settled with ⟨-, rfl⟩ | ⟨w, chain, committed, new, done, settled⟩
  · exact ⟨⟨hdropped, e, last, hstage.drop queue fun _ _ => Outcome.noConfusion⟩,
      unsettled_drop queue⟩
  · have hbegun : t.replica.window.Begun d :=
      h.kept.queued (.decided d b) (queue ▸ List.mem_cons_self)
    have hkept := hdropped.deliver hbegun new done
    have hlast : w.lastEpoch = some e := by
      rw [(Window.finishEpoch_eq new).2]
      exact last
    have hless : unsettled ({ t with outcomes := rest }.deliver d w chain committed) <
        t.unsettled := by
      have hfewer : w.idle ≤ t.replica.window.idle := Window.idle_finishEpoch new
      show rest.length + 2 * w.idle < t.outcomes.length + 2 * t.replica.window.idle
      rw [queue, List.length_cons]
      omega
    rcases resume_cases settled with ⟨free, rfl⟩ | ⟨carried, waits, settled⟩
    · exact ⟨⟨hkept, e, hlast, hstage.deliver last queue hbegun free new⟩, hless⟩
    · have hsome : t.replica.deferred = some carried := waits
      have hfree : Kept services { { t with outcomes := rest }.deliver d w chain committed with
          replica.deferred := none } := { hkept with delivering := { hkept.delivering with } }
      cases hstage with
      | waiting handed _ _ =>
        obtain ⟨hpassing, hle⟩ := hfree.startOrDefer hlast handed (fun _ => rfl) settled
        exact ⟨hpassing, Nat.lt_of_le_of_lt hle hless⟩
      | running _ _ _ _ _ _ free | ended _ _ free | cutOff _ free =>
        rw [free] at hsome
        cases hsome

/-- **The end of an epoch** is settled: it starts the next one if it was the last. -/
theorem Passing.onFinished (h : t.Passing services) {valid locked : Option Certificate}
    (queue : t.outcomes = .finished d valid locked :: rest)
    (settled : { t with outcomes := rest }.onOutcome services (.finished d valid locked) = .ok t') :
    t'.Passing services ∧ t'.unsettled < t.unsettled := by
  have hdropped := h.kept.drop queue
  have hless := unsettled_drop queue
  obtain ⟨e, last, hstage⟩ := h.stage
  simp only [onOutcome] at settled
  split at settled
  · rename_i hlast
    obtain rfl : e = d := Option.some.inj (last.symm.trans hlast)
    obtain ⟨handed, free⟩ : t.HandedOver e ∧
        (t.replica.window.isFull = false → t.replica.deferred = none) := by
      cases hstage with
      | running _ _ _ _ quiet _ _ => exact absurd rfl (quiet _ (queue ▸ List.mem_cons_self))
      | ended queued handed free => exact ⟨handed, fun _ => free⟩
      | waiting handed waits full => exact ⟨handed, fun room => by rw [full] at room; cases room⟩
      | cutOff limit free =>
        have hbegun := h.kept.queued (.finished e valid locked) (queue ▸ List.mem_cons_self)
        exact absurd limit hbegun.2
    obtain ⟨hpassing, hle⟩ := hdropped.startOrDefer last handed free settled
    exact ⟨hpassing, Nat.lt_of_le_of_lt hle hless⟩
  · rename_i hother
    cases settled
    refine ⟨⟨hdropped, e, last, hstage.drop queue ?_⟩, hless⟩
    rintro _ _ ⟨⟩
    exact hother last

/-- **Any outcome** is settled. -/
theorem Passing.onOutcome (h : t.Passing services) (queue : t.outcomes = o :: rest)
    (settled : { t with outcomes := rest }.onOutcome services o = .ok t') :
    t'.Passing services ∧ t'.unsettled < t.unsettled := by
  cases o with
  | decided d b => exact h.onDecided queue settled
  | finished d valid locked => exact h.onFinished queue settled

/-- **Settling** leaves no outcome. -/
theorem Passing.settleUpTo {rounds : Nat} (h : t.Passing services) (enough : t.unsettled ≤ rounds)
    (settled : settleUpTo services rounds t = .ok t') :
    t'.Passing services ∧ t'.outcomes = [] := by
  induction rounds generalizing t with
  | zero =>
    cases settled
    refine ⟨h, List.length_eq_zero_iff.mp ?_⟩
    unfold unsettled at enough
    omega
  | succ rounds ih =>
    unfold Turn.settleUpTo at settled
    split at settled
    · rename_i hnone
      cases settled
      exact ⟨h, hnone⟩
    · rename_i o rest queue
      obtain ⟨u, hu, settled⟩ := bind_eq_ok.mp settled
      obtain ⟨hpassing, hless⟩ := h.onOutcome queue hu
      exact ih hpassing (by omega) settled

theorem Passing.settle (h : t.Passing services) (settled : t.settle services = .ok t') :
    t'.Passing services ∧ t'.outcomes = [] := by
  refine h.settleUpTo ?_ settled
  have hidle := t.replica.window.idle_le
  unfold unsettled
  omega

/-! ### Calls -/

/-- **A call on one epoch** passes the baton on. -/
theorem Passing.called (h : t.Passing services) {inst : Option Instance}
    {act : Instance → Context (Chain × τ) → Except Fault (Instance × Context (Chain × τ))}
    (serves : ∀ i, inst = some i → t.replica.window.Serves e i) (acts : t.Acts services act)
    {u : Turn τ} (called : t.call services inst act = .ok u) : u.Passing services := by
  cases inst with
  | none =>
    cases called
    exact h
  | some i =>
    have hserves := serves i rfl
    obtain ⟨i', c, w, done, kept, rfl⟩ := call_some.mp called
    obtain ⟨m, s', rfl, rfl, rfl, hran⟩ := h.kept.ran hserves.source acts done
    exact h.acted hserves hran kept

/-- Nothing is settled when nothing is left to settle. -/
theorem settleUpTo_of_quiet (quiet : t.outcomes = []) (rounds : Nat) :
    settleUpTo services rounds t = .ok t := by
  cases rounds with
  | zero => rfl
  | succ rounds =>
    unfold Turn.settleUpTo
    rw [quiet]

theorem settle_of_quiet (quiet : t.outcomes = []) : t.settle services = .ok t :=
  settleUpTo_of_quiet quiet _

/-- What a call does before anything is settled. -/
def react (services : Services τ) (t : Turn τ) : Input → Except Fault (Turn τ)
  | .bootstrap =>
    if t.replica.window.lastEpoch.isSome then .ok t else t.startEpoch services ⟨none, none⟩
  | .message m =>
    match m.epoch? <|> t.replica.window.lastEpoch with
    | none => .ok t
    | some epoch => do
      t.call services (← t.replica.window.claim? epoch) (·.receive (t.replica.host services) m)
  | .timeout timeout => do
    t.call services (← t.replica.window.instance? timeout.epoch)
      (·.expire (t.replica.host services) timeout)

/-- A message that has an epoch goes to that one. -/
theorem react_message {x : Message} (epoch : x.epoch? = some e) :
    t.react services (.message x) = t.replica.window.claim? e >>= fun inst =>
      t.call services inst (·.receive (t.replica.host services) x) := by
  simp only [react, epoch]
  rfl

/-- A call reacts, and then settles what came of it. -/
theorem take_eq (quiet : t.outcomes = []) (input : Input) :
    t.take services input = t.react services input >>= fun u => u.settle services := by
  have hsame : { t with outcomes := [] } = t := by rw [← quiet]
  have hsettled : (.ok t : Except Fault (Turn τ)) = .ok t >>= fun u => u.settle services :=
    (settle_of_quiet quiet).symm
  cases input with
  | bootstrap =>
    unfold Turn.take bootstrap react
    rw [hsame]
    simp only [pure, Except.pure]
    split
    · exact hsettled
    · rfl
  | message m =>
    unfold Turn.take handleMessage react
    simp only [hsame]
    cases m.epoch? <|> t.replica.window.lastEpoch with
    | none => exact hsettled
    | some epoch => simp only [bind_assoc]
  | timeout timeout =>
    unfold Turn.take handleTimeout react
    simp only [hsame, bind_assoc]

/-- A call does nothing, or it is the first one and starts the first epoch, or it runs one
epoch. -/
theorem react_cases (placed : t.replica.window.Placed) {input : Input} {u : Turn τ}
    (reacted : t.react services input = .ok u) :
    u = t ∨ (t.replica.window.lastEpoch = none ∧ t.startEpoch services ⟨none, none⟩ = .ok u) ∨
      ∃ e inst act, (∀ i, inst = some i → t.replica.window.Serves e i) ∧ t.Acts services act ∧
        t.call services inst act = .ok u := by
  cases input with
  | bootstrap =>
    unfold react at reacted
    simp only at reacted
    split at reacted
    · exact .inl (Except.ok.inj reacted).symm
    · rename_i hnew
      exact .inr (.inl ⟨by simpa using hnew, reacted⟩)
  | message m =>
    unfold react at reacted
    simp only at reacted
    split at reacted
    · exact .inl (Except.ok.inj reacted).symm
    · obtain ⟨inst, claimed, called⟩ := bind_eq_ok.mp reacted
      exact .inr (.inr ⟨_, inst, _, fun i hi => Window.serves_of_claim placed (hi ▸ claimed),
        acts_receive t m, called⟩)
  | timeout timeout =>
    obtain ⟨inst, found, called⟩ := bind_eq_ok.mp reacted
    exact .inr (.inr ⟨_, inst, _, fun i hi => Window.serves_of_instance placed (hi ▸ found),
      acts_expire t timeout, called⟩)

/-- What comes of it is settled. -/
theorem take_cases (placed : t.replica.window.Placed) (quiet : t.outcomes = []) {input : Input}
    (taken : t.take services input = .ok t') :
    t' = t ∨ (t.replica.window.lastEpoch = none ∧ ∃ u,
        t.startEpoch services ⟨none, none⟩ = .ok u ∧ u.settle services = .ok t') ∨
      ∃ e inst act u, (∀ i, inst = some i → t.replica.window.Serves e i) ∧ t.Acts services act ∧
        t.call services inst act = .ok u ∧ u.settle services = .ok t' := by
  rw [take_eq quiet] at taken
  obtain ⟨u, reacted, settled⟩ := bind_eq_ok.mp taken
  rcases react_cases placed reacted with
    rfl | ⟨hnew, started⟩ | ⟨e, inst, act, serves, acts, called⟩
  · rw [settle_of_quiet quiet] at settled
    exact .inl (Except.ok.inj settled).symm
  · exact .inr (.inl ⟨hnew, u, started, settled⟩)
  · exact .inr (.inr ⟨e, inst, act, u, serves, acts, called, settled⟩)

/-- **Every call** passes the baton on. -/
theorem Passing.take (h : t.Passing services) (quiet : t.outcomes = []) {input : Input}
    (taken : t.take services input = .ok t') : t'.Passing services ∧ t'.outcomes = [] := by
  rcases take_cases h.kept.delivering.placed quiet taken with
    rfl | ⟨hnew, -⟩ | ⟨e, inst, act, u, hserves, hacts, called, settled⟩
  · exact ⟨h, quiet⟩
  · obtain ⟨e, last, -⟩ := h.stage
    rw [last] at hnew
    cases hnew
  · exact (h.called hserves hacts called).settle settled

/-- Before any call nothing has begun. -/
theorem kept_start {id : ProcessId} {count : Nat} {config : Config} {r : Replica}
    (fresh : Replica.Fresh id count config r) (sync : config.model = .sync) (world : τ) :
    (Turn.start r world).Kept services := by
  have hwindow : (Turn.start r world).replica.window = .ofConfig config id := fresh.window
  refine ⟨delivering_start fresh world, ?_, ?_, ?_, ?_, ?_⟩
  · rw [hwindow]
    exact sync
  · intro inst hinst
    rw [hwindow] at hinst
    exact absurd hinst (Window.not_holds_ofConfig config id)
  · intro o ho
    cases ho
  · rintro e ⟨_, _, _, _, hrecord, -⟩
    cases hrecord
  · intro e he
    rw [hwindow] at he
    cases he

/-- Before any call there is room for the first epoch. -/
theorem room_start {id : ProcessId} {count : Nat} {config : Config} {r : Replica}
    (created : Replica.create id count config = .ok r) (world : τ) :
    (Turn.start r world).replica.window.lastEpoch = none ∧
      (Turn.start r world).replica.window.isFull = false := by
  have hwindow : (Turn.start r world).replica.window = .ofConfig config id :=
    (Replica.fresh_create created).window
  have hpos : 0 < config.maxActiveEpochs :=
    Config.pos_of_validate (Replica.valid_of_create created) (f := .maxActiveEpochs)
      (by simp [Config.positive])
  rw [hwindow]
  exact ⟨rfl, decide_eq_false (Nat.not_le_of_lt hpos)⟩

/-- The first call starts the first epoch. -/
theorem passing_bootstrap {id : ProcessId} {count : Nat} {config : Config} {r : Replica} {world : τ}
    (created : Replica.create id count config = .ok r) (sync : config.model = .sync)
    (taken : (Turn.start r world).take services .bootstrap = .ok t) :
    t.Passing services ∧ t.outcomes = [] := by
  have hfresh := Replica.fresh_create created
  obtain ⟨hnew, hroom⟩ := room_start created world
  unfold Turn.take bootstrap at taken
  simp only [hnew, Option.isSome_none, Bool.false_eq_true, if_false] at taken
  obtain ⟨u, started, settled⟩ := bind_eq_ok.mp taken
  exact ((kept_start hfresh sync world).startEpoch hfresh.deferred hroom started).1.settle settled

/-! ### Runs -/

/-- The last epoch is in its slot, has started, and has neither finished nor handed over. -/
def LastRuns (t : Turn τ) : Prop := ∃ e inst, t.replica.window.lastEpoch = some e ∧
  t.replica.window.instance? e = .ok (some inst) ∧ inst.started = true ∧ inst.finished = false ∧
  ¬ t.HandedOver e

/-- The next epoch waits for a decision to make room in the window. -/
def NextWaits (t : Turn τ) : Prop :=
  t.replica.deferred.isSome = true ∧ t.replica.window.isFull = true

/-- The last epoch has reached the limit. -/
def LimitReached (t : Turn τ) : Prop := 0 < t.replica.window.maxEpochToStart ∧
  ∃ e, t.replica.window.lastEpoch = some e ∧ t.replica.window.maxEpochToStart ≤ e.toNat

/-- A last epoch that runs has begun and has not handed over. -/
theorem LastRuns.begun (h : t.LastRuns) (kept : t.Kept services)
    (last : t.replica.window.lastEpoch = some e) :
    t.replica.window.Begun e ∧ ¬ t.HandedOver e := by
  obtain ⟨d, inst, hd, found, started, -, keeps⟩ := h
  obtain rfl : d = e := Option.some.inj (hd.symm.trans last)
  obtain ⟨hheld, hepoch⟩ := Window.instance_cases found
  obtain ⟨m, rfl, hm⟩ := kept.held inst hheld
  have hacts : m.phase ≠ .inactive := of_decide_eq_true started
  exact ⟨hepoch ▸ hm.resolve_left hacts, keeps⟩

theorem limitReached_iff (last : t.replica.window.lastEpoch = some e) :
    t.LimitReached ↔ t.replica.window.CutsOff e := by
  simp [LimitReached, Window.CutsOff, last]

/-- A last epoch that is open runs, if nothing is left to settle. -/
theorem Passing.lastRuns (h : t.Passing services) (last : t.replica.window.lastEpoch = some m.epoch)
    (held : t.replica.window.Holds (.consensus m)) (opened : m.IsOpen)
    (keeps : ¬ t.HandedOver m.epoch) : t.LastRuns := by
  refine ⟨m.epoch, .consensus m, last,
    Window.instance_of_holds h.kept.delivering.placed held, ?_, ?_, keeps⟩
  · rcases opened with hphase | hphase <;> simp [Instance.started, Machine.started, hphase]
  · rcases opened with hphase | hphase <;> simp [Instance.finished, Machine.finished, hphase]

theorem not_nextWaits (free : t.replica.deferred = none) : ¬ t.NextWaits := by
  simp [NextWaits, free]

/-- Once everything is settled the last epoch is in one stage of three. -/
theorem Passing.rests (h : t.Passing services) (quiet : t.outcomes = []) :
    (t.LastRuns ∨ t.NextWaits ∨ t.LimitReached) ∧ ¬ (t.LastRuns ∧ t.NextWaits) ∧
      ¬ (t.LastRuns ∧ t.LimitReached) ∧ ¬ (t.NextWaits ∧ t.LimitReached) := by
  obtain ⟨e, last, hstage⟩ := h.stage
  have hruns : ¬ (t.LastRuns ∧ t.LimitReached) := fun ⟨hlast, hlimit⟩ =>
    (hlast.begun h.kept last).1.2 ((limitReached_iff last).mp hlimit)
  cases hstage with
  | running held epoch opened undecided _ keeps free =>
    subst epoch
    have hnext := not_nextWaits free
    exact ⟨.inl (h.lastRuns last held opened keeps), fun both => hnext both.2, hruns,
      fun both => hnext both.1⟩
  | ended queued =>
    rw [quiet] at queued
    cases queued
  | waiting handed waits full =>
    have hlast : ¬ t.LastRuns := fun hlast => (hlast.begun h.kept last).2 handed
    have hlimit : ¬ t.LimitReached := fun hlimit =>
      (h.kept.handed e handed).2 ((limitReached_iff last).mp hlimit)
    exact ⟨.inr (.inl ⟨waits, full⟩), fun both => hlast both.1, hruns, fun both => hlimit both.2⟩
  | cutOff limit free =>
    have hnext := not_nextWaits free
    exact ⟨.inr (.inr ((limitReached_iff last).mpr limit)), fun both => hnext both.2, hruns,
      fun both => hnext both.1⟩

/-- **The succession of epochs.**  From the first call on, after every call exactly one of three
holds: the last epoch is in its slot, has started, and has neither finished nor handed over; or the
next start is deferred and the window is full; or the last epoch has reached the limit. -/
theorem run_succession {id : ProcessId} {count : Nat} {config : Config} {r : Replica} {world : τ}
    {inputs : List Input} (created : Replica.create id count config = .ok r)
    (sync : config.model = .sync)
    (ran : (Turn.start r world).run services (.bootstrap :: inputs) = .ok t) :
    (t.LastRuns ∨ t.NextWaits ∨ t.LimitReached) ∧ ¬ (t.LastRuns ∧ t.NextWaits) ∧
      ¬ (t.LastRuns ∧ t.LimitReached) ∧ ¬ (t.NextWaits ∧ t.LimitReached) := by
  unfold run at ran
  rw [List.foldlM_cons] at ran
  obtain ⟨u, first, ran⟩ := bind_eq_ok.mp ran
  obtain ⟨hpassing, hquiet⟩ : t.Passing services ∧ t.outcomes = [] := by
    refine foldlM_keeps (motive := fun u => u.Passing services ∧ u.outcomes = []) ?_ ran
      (passing_bootstrap created sync first)
    exact fun u input u' _ ⟨hpassing, hquiet⟩ taken => hpassing.take hquiet taken
  exact hpassing.rests hquiet

/-- In this run the first epoch hands over and the second one runs. -/
theorem run_succession_solo :
    ∃ t, (Turn.start soloReplica ()).run soloServices soloInputs = .ok t ∧
      t.replica.window.lastEpoch = some 1 ∧ t.LastRuns := by
  obtain ⟨t, hran, hstate⟩ : ∃ t, (Turn.start soloReplica ()).run soloServices soloInputs = .ok t ∧
      (t.replica.window.lastEpoch, t.replica.deferred.isSome, t.replica.window.maxEpochToStart) =
        (some 1, false, 0) := exists_of_toOption (by decide +kernel)
  obtain ⟨hlast, hdeferred, hlimit⟩ : t.replica.window.lastEpoch = some 1 ∧
      t.replica.deferred.isSome = false ∧ t.replica.window.maxEpochToStart = 0 := by
    simpa using hstate
  refine ⟨t, hran, hlast, (run_succession create_solo rfl hran).1.resolve_right ?_⟩
  rintro (⟨waits, -⟩ | ⟨limit, -⟩)
  · rw [hdeferred] at waits
    cases waits
  · rw [hlimit] at limit
    cases limit

end Turn

end EpochConsensus
