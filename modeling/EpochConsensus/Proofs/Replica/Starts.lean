import EpochConsensus.Proofs.Replica.Attendance

/-! # How many epochs a call starts

Settling refills the queue that it empties: the end of the last epoch starts the next one, which may
end at once on messages that waited for it.  An epoch for which nothing waited leaves nothing to
settle as it starts.  So the measure is not the queue but the stock of instances with messages: a
start either takes one of them out of the window, or no other start follows it before something else
ends an epoch (`Turn.Within`).  Each round of settling keeps the bound (`Passing.within_onOutcome`),
hence a call starts at most one epoch more than there are such instances (`run_starts`).
-/
namespace EpochConsensus

/-- Not started, with messages that wait for the start. -/
def Instance.isStocked : Instance → Bool
  | consensus m => !m.started && !m.pending.isEmpty
  | probe _ => false

/-- How many instances have messages that wait for the start. -/
def Window.stock (w : Window) : Nat := w.count Instance.isStocked

namespace Window

variable {w w' : Window}

/-- An epoch that has begun takes nothing into the stock. -/
theorem stock_put_started {m : Machine} (kept : w.put (.consensus m) = .ok w')
    (started : m.phase ≠ .inactive) : w'.stock ≤ w.stock :=
  (count_put (x := .consensus m) kept
    (by simp [Instance.isStocked, Machine.started, started])).1

theorem stock_finishEpoch {e : Epoch} (h : w.finishEpoch e = .ok (w', true)) :
    w'.stock ≤ w.stock :=
  count_finishEpoch h fun x hx => by
    cases x with
    | consensus m => simp [Instance.stop, Instance.isStocked, Machine.stop, Machine.started] at hx
    | probe b => cases hx

end Window

def Record.isStart {τ : Type} : Record τ → Bool
  | started _ _ => true
  | acted _ _ => false

namespace Turn

variable {τ : Type} {services : Services τ} {t t' u : Turn τ} {d e : Epoch} {m : Machine}
  {s' : Step (Chain × τ)} {w : Window} {carried : Carried} {b : Block} {o : Outcome}
  {rest : List Outcome} {n : Nat}

/-- How many epochs have started. -/
def starts (t : Turn τ) : Nat := t.records.countP (·.isStart)

/-- The end of the last epoch is on the queue, or the next start is deferred. -/
def NextDue (t : Turn τ) : Prop := t.replica.deferred.isSome = true ∨
  ∃ e valid locked, t.replica.window.lastEpoch = some e ∧ .finished e valid locked ∈ t.outcomes

/-- However many epochs start before the call is over, they are at most `n` in all. -/
structure Within (t : Turn τ) (n : Nat) : Prop where
  stock : t.starts + t.replica.window.stock ≤ n
  next : t.NextDue → t.starts + t.replica.window.stock < n

/-! ### Acting -/

theorem starts_absorb {c : Context (Chain × τ)} : (t.absorb services w c).starts = t.starts := by
  have hnone : (c.moments.toList.map (Record.acted t.replica.window.lastDecided)).countP
      (·.isStart) = 0 := by
    simp [Record.isStart]
  show List.countP _ (t.records ++ _) = _
  rw [List.countP_append, hnone]
  rfl

/-- The next epoch starts: it takes its messages out of the stock, or leaves nothing to settle. -/
theorem Kept.within_startEpoch (h : t.Kept services) (free : t.replica.deferred = none)
    (room : t.replica.window.isFull = false) (bound : t.starts + t.replica.window.stock < n)
    (started : t.startEpoch services carried = .ok t') : t'.Within n := by
  obtain ⟨e, next, ⟨limit, rfl⟩ | ⟨limit, inst, inst', c, w, found, done, kept, rfl⟩⟩ :=
    startEpoch_cases room started
  · exact ⟨Nat.le_of_lt bound, fun _ => bound⟩
  obtain ⟨m, s', rfl, rfl, rfl, hopening, -⟩ := h.start next limit found done kept
  obtain rfl := hopening.epoch
  have hstarts : ({ t with records := t.records ++ [Record.started m.epoch carried] }.absorb
      services w s'.toContext).starts = t.starts + 1 := by
    rw [starts_absorb]
    simp [starts, List.countP_append, Record.isStart]
  have hfewer := Window.count_put (x := .consensus m) (q := Instance.isStocked) kept
    (by simp [Instance.isStocked, Machine.started, hopening.started])
  have hle : w.stock ≤ t.replica.window.stock := hfewer.1
  cases hpending : m.pending with
  | nil =>
    refine ⟨?_, ?_⟩
    · rw [hstarts]
      show t.starts + 1 + w.stock ≤ n
      omega
    · rintro (waits | ⟨d, valid, locked, last, queued⟩)
      · have hfree : t.replica.deferred.isSome = true := waits
        simp [free] at hfree
      · -- what is on the queue is from before, when the epoch had not begun
        rw [outcomes_absorb, hopening.quiet hpending, List.append_nil] at queued
        have hlast : w.lastEpoch = some d := last
        rw [Window.lastEpoch_put kept] at hlast
        obtain rfl : m.epoch = d := Option.some.inj hlast
        exact absurd (h.queued _ queued) (Window.not_begun_next next)
  | cons x xs =>
    have hstocked : Instance.isStocked (.consensus m) = true := by
      simp [Instance.isStocked, Machine.started, hopening.idle, hpending]
    have hheld : t.replica.window.Holds (.consensus m) := by
      rcases found with hfound | hcreated
      · exact (Window.instance_cases hfound).1
      · unfold Factory.create at hcreated
        rw [h.sync] at hcreated
        have hnone : m.pending = [] := congrArg Machine.pending (Instance.consensus.inj hcreated)
        rw [hnone] at hpending
        cases hpending
    have hlt : w.stock < t.replica.window.stock :=
      hfewer.2 h.delivering.placed hheld hopening.leaves.epoch.symm hstocked
    have hboth : t.starts + 1 + w.stock < n := by omega
    exact ⟨hstarts ▸ Nat.le_of_lt hboth, fun _ => hstarts ▸ hboth⟩

theorem Kept.within_startOrDefer (h : t.Kept services)
    (free : t.replica.window.isFull = false → t.replica.deferred = none)
    (bound : t.starts + t.replica.window.stock < n)
    (settled : t.startOrDefer services carried = .ok t') : t'.Within n := by
  rcases startOrDefer_cases settled with ⟨-, rfl⟩ | ⟨room, settled⟩
  · exact ⟨Nat.le_of_lt bound, fun _ => bound⟩
  · exact h.within_startEpoch (free room) room bound settled

/-! ### Settling -/

theorem Within.drop (h : t.Within n) (queue : t.outcomes = o :: rest) :
    Within { t with outcomes := rest } n := by
  refine ⟨h.stock, fun due => h.next ?_⟩
  rcases due with waits | ⟨e, valid, locked, last, queued⟩
  · exact .inl waits
  · exact .inr ⟨e, valid, locked, last, queue ▸ List.mem_cons_of_mem o queued⟩

/-- Nothing keeps a start waiting but a full window. -/
theorem Passing.free (h : t.Passing services) (room : t.replica.window.isFull = false) :
    t.replica.deferred = none := by
  obtain ⟨e, -, hstage⟩ := h.stage
  cases hstage with
  | running _ _ _ _ _ _ free | ended _ _ free | cutOff _ free => exact free
  | waiting _ _ full =>
    rw [full] at room
    cases room

theorem Passing.within_onDecided (h : t.Passing services)
    (queue : t.outcomes = .decided d b :: rest) (bound : t.Within n)
    (settled : { t with outcomes := rest }.onDecided services d b = .ok t') : t'.Within n := by
  have hdropped := bound.drop queue
  rcases onDecided_cases settled with ⟨-, rfl⟩ | ⟨w, chain, committed, new, done, settled⟩
  · exact hdropped
  · have hbegun := h.kept.queued (.decided d b) (queue ▸ List.mem_cons_self)
    have hkept := (h.kept.drop queue).deliver hbegun new done
    have hstock : w.stock ≤ t.replica.window.stock := Window.stock_finishEpoch new
    have hle := hdropped.stock
    rcases resume_cases settled with ⟨-, rfl⟩ | ⟨c, waits, settled⟩
    · refine ⟨Nat.le_trans (Nat.add_le_add_left hstock _) hdropped.stock, fun due => ?_⟩
      refine Nat.lt_of_le_of_lt (Nat.add_le_add_left hstock _) (hdropped.next ?_)
      rcases due with waits | ⟨e, valid, locked, last, queued⟩
      · exact .inl waits
      · refine .inr ⟨e, valid, locked, ?_, queued⟩
        have hlast : w.lastEpoch = some e := last
        rw [(Window.finishEpoch_eq new).2] at hlast
        exact hlast
    · have hsome : t.replica.deferred = some c := waits
      have hdue : t.starts + t.replica.window.stock < n := bound.next (.inl (by simp [hsome]))
      have hfree : Kept services { { t with outcomes := rest }.deliver d w chain committed with
          replica.deferred := none } := { hkept with delivering := { hkept.delivering with } }
      exact hfree.within_startOrDefer (fun _ => rfl)
        (Nat.lt_of_le_of_lt (Nat.add_le_add_left hstock _) hdue) settled

/-- **Settling an outcome** keeps within the bound. -/
theorem Passing.within_onOutcome (h : t.Passing services) (queue : t.outcomes = o :: rest)
    (bound : t.Within n) (settled : { t with outcomes := rest }.onOutcome services o = .ok t') :
    t'.Within n := by
  cases o with
  | decided d b => exact h.within_onDecided queue bound settled
  | finished d valid locked =>
    simp only [Turn.onOutcome] at settled
    split at settled
    · rename_i last
      have hdue : t.starts + t.replica.window.stock < n :=
        bound.next (.inr ⟨d, valid, locked, last, queue ▸ List.mem_cons_self⟩)
      exact (h.kept.drop queue).within_startOrDefer h.free hdue settled
    · cases settled
      exact bound.drop queue

theorem Passing.within_settleUpTo {rounds : Nat} (h : t.Passing services) (bound : t.Within n)
    (settled : Turn.settleUpTo services rounds t = .ok t') : t'.Within n := by
  refine (settleUpTo_keeps (motive := fun u => u.Passing services ∧ u.Within n) ?_ settled
    ⟨h, bound⟩).2
  intro u o rest u' ⟨hu, hbound⟩ queue hround
  exact ⟨(hu.onOutcome queue hround).1, hu.within_onOutcome queue hbound hround⟩

/-- **More rounds change nothing** once they are enough for every outcome. -/
theorem Passing.settleUpTo_eq (h : t.Passing services) {i j : Nat} (hi : t.unsettled ≤ i)
    (hj : t.unsettled ≤ j) :
    Turn.settleUpTo services i t = Turn.settleUpTo services j t := by
  induction i generalizing t j with
  | zero =>
    have hquiet : t.outcomes = [] := by
      refine List.length_eq_zero_iff.mp ?_
      unfold unsettled at hi
      omega
    rw [settleUpTo_of_quiet hquiet, settleUpTo_of_quiet hquiet]
  | succ i ih =>
    cases queue : t.outcomes with
    | nil => rw [settleUpTo_of_quiet queue, settleUpTo_of_quiet queue]
    | cons o rest =>
      obtain ⟨j, rfl⟩ : ∃ k, j = k + 1 := by
        refine Nat.exists_eq_succ_of_ne_zero ?_
        unfold unsettled at hj
        rw [queue, List.length_cons] at hj
        omega
      unfold Turn.settleUpTo
      simp only [queue]
      cases hu : { t with outcomes := rest }.onOutcome services o with
      | error f => rfl
      | ok u =>
        obtain ⟨hpassing, hless⟩ := h.onOutcome queue hu
        exact ih hpassing (by omega) (by omega)

/-! ### Calls -/

/-- A call on one epoch leaves nothing to settle, or the epoch has begun. -/
theorem Kept.within_call (h : t.Kept services) (quiet : t.outcomes = []) {inst : Option Instance}
    {act : Instance → Context (Chain × τ) → Except Fault (Instance × Context (Chain × τ))}
    (serves : ∀ i, inst = some i → t.replica.window.Serves e i) (acts : t.Acts services act)
    (called : t.call services inst act = .ok u) :
    u.starts = t.starts ∧ (u.outcomes = [] ∨
      t.replica.window.lastEpoch ≠ none ∧ u.replica.window.stock ≤ t.replica.window.stock) := by
  cases inst with
  | none =>
    cases called
    exact ⟨rfl, .inl quiet⟩
  | some i =>
    obtain ⟨i', c, w, done, kept, rfl⟩ := call_some.mp called
    have hsource := (serves i rfl).source
    obtain ⟨m, s', rfl, rfl, rfl, hran⟩ := h.ran hsource acts done
    obtain ⟨_, ⟨⟩, hidle, -⟩ := h.source hsource
    refine ⟨starts_absorb, ?_⟩
    by_cases hphase : m.phase = .inactive
    · -- the epoch only keeps what it receives
      exact .inl (by rw [outcomes_absorb, quiet, (hran.left.waits hphase).2, List.nil_append])
    · refine .inr ⟨fun hnew => ?_, Window.stock_put_started kept (hran.started hphase)⟩
      have hturn := (hidle.resolve_left hphase).1
      rw [hnew] at hturn
      exact Nat.not_lt_zero _ hturn

/-- What a call reacts with is settled, with no epoch more than there are instances with messages
and one. -/
theorem Rests.settles (h : t.Rests services) {input : Input}
    (reacted : t.react services input = .ok u) (settled : u.settle services = .ok t') :
    (∀ rounds, u.unsettled ≤ rounds → settleUpTo services rounds u = .ok t') ∧
      t'.starts ≤ t.starts + (1 + t.replica.window.stock) := by
  have hkept := h.attended.kept
  -- either nothing is left to settle, or the last epoch is in sight and the bound holds
  obtain ⟨hquiet, hstarts⟩ | ⟨hpassing, hwithin⟩ : u.outcomes = [] ∧ u.starts = t.starts ∨
      u.Passing services ∧ u.Within (t.starts + (1 + t.replica.window.stock)) := by
    rcases react_cases hkept.delivering.placed reacted with
      rfl | ⟨hnew, started⟩ | ⟨e, inst, act, hserves, hacts, called⟩
    · exact .inl ⟨h.quiet, rfl⟩
    · have hroom : t.replica.window.isFull = false := by
        rcases h.placid with ⟨-, hroom⟩ | hpassing
        · exact hroom
        · obtain ⟨e, last, -⟩ := hpassing.stage
          rw [last] at hnew
          cases hnew
      have hfree := h.atRest.free hroom
      exact .inr ⟨(hkept.startEpoch hfree hroom started).1,
        hkept.within_startEpoch hfree hroom (by omega) started⟩
    · obtain ⟨hstarts, hquiet | ⟨hbegun, hstock⟩⟩ :=
        hkept.within_call h.quiet hserves hacts called
      · exact .inl ⟨hquiet, hstarts⟩
      · have hpassing := h.placid.resolve_left fun hnew => hbegun hnew.1
        refine .inr ⟨hpassing.called hserves hacts called, ?_, fun _ => ?_⟩ <;>
          · rw [hstarts]
            omega
  · rw [settle_of_quiet hquiet] at settled
    cases settled
    exact ⟨fun rounds _ => settleUpTo_of_quiet hquiet rounds, by omega⟩
  · have henough : u.unsettled ≤ u.outcomes.length + 2 * u.replica.window.capacity + 2 := by
      have hidle := u.replica.window.idle_le
      unfold unsettled
      omega
    refine ⟨fun rounds hrounds => (hpassing.settleUpTo_eq hrounds henough).trans settled, ?_⟩
    have hbound := (hpassing.within_settleUpTo hwithin settled).stock
    omega

/-- **Settling comes to an end.**  Whatever a call reacts with, the loop that settles its outcomes
runs empty, and more rounds than there are outcomes and idle instances change nothing.  In all the
call starts at most one epoch and one more for each instance that had messages waiting before it. -/
theorem run_starts {id : ProcessId} {count : Nat} {config : Config} {r : Replica} {world : τ}
    {inputs : List Input} (created : Replica.create id count config = .ok r)
    (sync : config.model = .sync)
    (ran : (Turn.start r world).run services inputs = .ok t) {input : Input}
    (taken : t.take services input = .ok t') :
    ∃ u, t.react services input = .ok u ∧
      (∀ rounds, u.unsettled ≤ rounds → settleUpTo services rounds u = .ok t') ∧
      t'.outcomes = [] ∧ t'.starts ≤ t.starts + (1 + t.replica.window.stock) := by
  have hrests := ((rests_start created sync world).run ran).1
  have htaken := taken
  rw [take_eq hrests.quiet] at htaken
  obtain ⟨u, reacted, settled⟩ := bind_eq_ok.mp htaken
  obtain ⟨hrounds, hstarts⟩ := hrests.settles reacted settled
  exact ⟨u, reacted, hrounds, (hrests.take taken).quiet, hstarts⟩

/-! ### An epoch that ends as it starts -/

/-- The only process of a system, with room for three epochs. -/
def wideReplica : Replica :=
  { soloReplica with
    config := { soloConfig with maxActiveEpochs := 3 }
    window := .ofConfig { soloConfig with maxActiveEpochs := 3 } 0 }

theorem create_wide : Replica.create 0 1 { soloConfig with maxActiveEpochs := 3 } =
    .ok wideReplica := rfl

/-- It has received its vote for the next epoch before that starts. -/
def earlyInputs : List Input :=
  [.bootstrap, .message (.vote ⟨1, 0, soloBlock.id, 0, ⟨.fill 64 1⟩, 0, none⟩)]

/-- The vote for the first epoch then starts two more, one of which ends as it starts. -/
theorem run_starts_early :
    let vote : Input := .message (.vote ⟨0, 0, soloBlock.id, 0, ⟨.fill 64 1⟩, 0, none⟩)
    ∃ t t', (Turn.start wideReplica ()).run soloServices earlyInputs = .ok t ∧
      t.take soloServices vote = .ok t' ∧ t.replica.window.stock = 1 ∧ t'.starts = t.starts + 2 ∧
      t'.outcomes = [] ∧ t'.starts ≤ t.starts + (1 + t.replica.window.stock) := by
  intro vote
  obtain ⟨t', htaken, hstate⟩ : ∃ t', ((Turn.start wideReplica ()).run soloServices
      earlyInputs >>= fun t => do return (t, ← t.take soloServices vote)) = .ok t' ∧
      (t'.1.replica.window.stock, t'.1.starts, t'.2.starts) = (1, 1, 3) :=
    exists_of_toOption (by decide +kernel)
  obtain ⟨t, ran, htaken⟩ := bind_eq_ok.mp htaken
  obtain ⟨u, taken, htaken⟩ := bind_eq_ok.mp htaken
  cases htaken
  simp only [Prod.mk.injEq] at hstate
  obtain ⟨-, -, -, hquiet, hstarts⟩ := run_starts create_wide rfl ran taken
  exact ⟨t, u, ran, taken, hstate.1, by omega, hquiet, hstarts⟩

end Turn

end EpochConsensus
