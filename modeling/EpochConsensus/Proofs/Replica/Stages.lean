import EpochConsensus.Proofs.Replica.Deliveries
import EpochConsensus.Proofs.Replica.Outcomes

/-! # Where the last epoch stands

The end of the last epoch is what starts the next one, so a replica that lost it would never start
an epoch again.  A `Stage` says where the last epoch stands in the middle of a call: it is open, or
its end is on the queue, or the next start waits for room in the window, or the limit cut it off.
A call on any epoch leads from one stage to another (`Passing.acted`), and so does the start of the
next epoch (`Kept.startEpoch`).
-/
namespace EpochConsensus

theorem Context.finished_mem_outcomes {σ : Type} {c : Context σ} {e : Epoch}
    {valid locked : Option Certificate} :
    Outcome.finished e valid locked ∈ c.outcomes ↔
      ∃ x ∈ c.moments, x.effect = .finish e valid locked := by
  simp only [outcomes, effects, List.mem_filterMap, Array.mem_toList_iff, Array.mem_map]
  constructor
  · rintro ⟨effect, ⟨x, hx, rfl⟩, heffect⟩
    refine ⟨x, hx, ?_⟩
    generalize x.effect = effect at heffect
    cases effect <;> simp [Outcome.ofEffect?] at heffect ⊢
    exact heffect
  · rintro ⟨x, hx, hfinish⟩
    exact ⟨x.effect, ⟨x, hx, rfl⟩, by rw [hfinish]; rfl⟩

namespace Turn

variable {τ : Type}

/-- The epoch has handed over. -/
def HandedOver (t : Turn τ) (e : Epoch) : Prop :=
  ∃ decided x valid locked, Record.acted decided x ∈ t.records ∧ x.effect = .finish e valid locked

/-- What is kept of all epochs: only those act that have begun. -/
structure Kept (services : Services τ) (t : Turn τ) : Prop where
  delivering : t.Delivering services
  sync : t.replica.window.factory.model = .sync
  held : ∀ inst, t.replica.window.Holds inst →
    ∃ m, inst = .consensus m ∧ (m.phase = .inactive ∨ t.replica.window.Begun m.epoch)
  queued : ∀ o ∈ t.outcomes, t.replica.window.Begun o.epoch
  handed : ∀ e, t.HandedOver e → t.replica.window.Begun e
  decided : ∀ e, t.replica.window.lastDecided = some e → t.replica.window.Begun e

/-- Where the last epoch stands. -/
inductive Stage (t : Turn τ) (e : Epoch) : Prop
  /-- It is open, and nothing of it is left to settle. -/
  | running {m : Machine} (held : t.replica.window.Holds (.consensus m)) (epoch : m.epoch = e)
      (opened : m.IsOpen) (undecided : t.replica.window.isUndecided e = true)
      (quiet : ∀ o ∈ t.outcomes, o.epoch ≠ e) (keeps : ¬ t.HandedOver e)
      (free : t.replica.deferred = none)
  /-- Its end is still to be settled. -/
  | ended {valid locked : Option Certificate} (queued : .finished e valid locked ∈ t.outcomes)
      (handed : t.HandedOver e) (free : t.replica.deferred = none)
  /-- The next epoch waits for room in the window. -/
  | waiting (handed : t.HandedOver e) (waits : t.replica.deferred.isSome = true)
      (full : t.replica.window.isFull = true)
  /-- The limit kept it from being started. -/
  | cutOff (limit : t.replica.window.CutsOff e) (free : t.replica.deferred = none)

/-- A replica that has not lost its last epoch. -/
structure Passing (services : Services τ) (t : Turn τ) : Prop where
  kept : t.Kept services
  stage : ∃ e, t.replica.window.lastEpoch = some e ∧ t.Stage e

/-- How many rounds it takes at most to settle every outcome.  Each epoch that is not started yet
may add two. -/
def unsettled (t : Turn τ) : Nat := t.outcomes.length + 2 * t.replica.window.idle

variable {services : Services τ} {t t' : Turn τ} {e : Epoch} {m : Machine}
  {s' : Step (Chain × τ)} {w : Window}

/-! ### Acting -/

@[simp] theorem outcomes_absorb {c : Context (Chain × τ)} :
    (t.absorb services w c).outcomes = t.outcomes ++ c.outcomes := rfl

theorem handedOver_absorb {c : Context (Chain × τ)} : (t.absorb services w c).HandedOver e ↔
    t.HandedOver e ∨ ∃ valid locked, Outcome.finished e valid locked ∈ c.outcomes := by
  simp only [HandedOver, Context.finished_mem_outcomes, absorb, List.mem_append, List.mem_map,
    Array.mem_toList_iff]
  constructor
  · rintro ⟨decided, x, valid, locked, hrecord | ⟨y, hy, heq⟩, hfinish⟩
    · exact .inl ⟨decided, x, valid, locked, hrecord, hfinish⟩
    · cases heq
      exact .inr ⟨valid, locked, x, hy, hfinish⟩
  · rintro (⟨decided, x, valid, locked, hrecord, hfinish⟩ | ⟨valid, locked, x, hx, hfinish⟩)
    · exact ⟨decided, x, valid, locked, .inl hrecord, hfinish⟩
    · exact ⟨_, x, valid, locked, .inr ⟨x, hx, rfl⟩, hfinish⟩

/-- What is handed over stays so. -/
theorem HandedOver.absorb (h : t.HandedOver e) {c : Context (Chain × τ)} :
    (t.absorb services w c).HandedOver e := handedOver_absorb.mpr (.inl h)

/-- An epoch that may act is idle or has begun, whether it is new or in the window. -/
theorem Kept.source (h : t.Kept services) {inst : Instance}
    (source : t.replica.window.Holds inst ∨ inst = t.replica.window.factory.create e) :
    ∃ m, inst = .consensus m ∧ (m.phase = .inactive ∨ t.replica.window.Begun m.epoch) ∧
      (t.replica.host services).Sound (fun _ => True) m := by
  rcases source with hheld | rfl
  · obtain ⟨m, rfl, hm⟩ := h.held inst hheld
    exact ⟨m, rfl, hm, h.delivering.sound _ hheld⟩
  · have hsound : (t.replica.window.factory.create e).Sound (t.replica.host services)
        (fun _ => True) := Instance.sound_create _ _
    unfold Factory.create at hsound ⊢
    rw [h.sync] at hsound ⊢
    exact ⟨_, rfl, .inl rfl, hsound⟩

/-- An epoch acts. -/
theorem Kept.absorb (h : t.Kept services)
    (sane : (t.replica.host services).Sane (fun _ => True) (t.replica.chain, t.world) m s')
    (acts : (s'.machine.phase = .inactive ∧ s'.toContext.outcomes = []) ∨
      t.replica.window.Begun m.epoch)
    (own : ∀ o ∈ s'.toContext.outcomes, o.epoch = m.epoch)
    (kept : t.replica.window.put (.consensus s'.machine) = .ok w) :
    (t.absorb services w s'.toContext).Kept services := by
  have hbegun : ∀ o ∈ s'.toContext.outcomes, t.replica.window.Begun o.epoch := by
    intro o ho
    rcases acts with ⟨-, hnone⟩ | hbegun
    · rw [hnone] at ho
      cases ho
    · rw [own o ho]
      exact hbegun
  have hheld : ∀ x, w.Holds x →
      ∃ m, x = .consensus m ∧ (m.phase = .inactive ∨ t.replica.window.Begun m.epoch) := by
    intro x hx
    rcases Window.holds_put h.delivering.placed kept hx with rfl | ⟨hold, -⟩
    · rw [← sane.epoch] at acts
      exact ⟨_, rfl, acts.imp_left And.left⟩
    · exact h.held x hold
  have hdelivering := h.delivering.absorb (Instance.sane_consensus sane) kept
  obtain ⟨_, -, rfl⟩ := Window.put_eq kept
  refine ⟨hdelivering, h.sync, hheld, ?_, ?_, h.decided⟩
  · intro o ho
    exact (List.mem_append.mp ho).elim (h.queued o) (hbegun o)
  · intro d hd
    rcases handedOver_absorb.mp hd with hold | ⟨valid, locked, hnew⟩
    · exact h.handed d hold
    · exact hbegun _ hnew

/-- What comes of a call on an epoch is what the epoch does. -/
def Acts (services : Services τ) (t : Turn τ)
    (act : Instance → Context (Chain × τ) → Except Fault (Instance × Context (Chain × τ))) : Prop :=
  ∀ m inst' c, (t.replica.host services).Sound (fun _ => True) m →
    act (.consensus m) t.context = .ok (inst', c) → ∃ s', inst' = .consensus s'.machine ∧
      c = s'.toContext ∧ (t.replica.host services).Ran (t.replica.chain, t.world) m s'

theorem acts_receive (t : Turn τ) (x : Message) :
    t.Acts services (·.receive (t.replica.host services) x) := by
  intro m inst' c hm done
  obtain ⟨s', hs', rfl, rfl⟩ := Instance.ofStep_eq_ok done
  exact ⟨s', rfl, rfl, Host.receive_ran hm hs'⟩

theorem acts_expire (t : Turn τ) (timeout : Timeout) :
    t.Acts services (·.expire (t.replica.host services) timeout) := by
  intro m inst' c hm done
  obtain ⟨s', hs', rfl, rfl⟩ := Instance.ofStep_eq_ok done
  exact ⟨s', rfl, rfl, Host.expire_ran hm hs'⟩

/-- What acts is an epoch of consensus. -/
theorem Kept.ran (h : t.Kept services) {inst inst' : Instance} {c : Context (Chain × τ)}
    {act : Instance → Context (Chain × τ) → Except Fault (Instance × Context (Chain × τ))}
    (source : t.replica.window.Holds inst ∨ inst = t.replica.window.factory.create e)
    (acts : t.Acts services act) (done : act inst t.context = .ok (inst', c)) :
    ∃ m s', inst = .consensus m ∧ inst' = .consensus s'.machine ∧ c = s'.toContext ∧
      (t.replica.host services).Ran (t.replica.chain, t.world) m s' := by
  obtain ⟨m, rfl, -, hsound⟩ := h.source source
  obtain ⟨s', rfl, rfl, hran⟩ := acts m inst' c hsound done
  exact ⟨m, s', rfl, rfl, rfl, hran⟩

/-- A call on one epoch keeps what is kept of all. -/
theorem Kept.acted (h : t.Kept services)
    (source : t.replica.window.Holds (.consensus m) ∨
      .consensus m = t.replica.window.factory.create e)
    (ran : (t.replica.host services).Ran (t.replica.chain, t.world) m s')
    (kept : t.replica.window.put (.consensus s'.machine) = .ok w) :
    (t.absorb services w s'.toContext).Kept services := by
  obtain ⟨m', hm', hacts, -⟩ := h.source source
  cases hm'
  exact h.absorb ran.sane (hacts.imp_left ran.left.waits)
    (fun o ho => ran.left.leaves.epoch_of_mem ho) kept

/-- An open last epoch runs on, or brings its end onto the queue. -/
theorem stage_of_open (opened : m.IsOpen)
    (leaves : m.Leaves s'.machine s'.toContext.outcomes)
    (undecided : t.replica.window.isUndecided m.epoch = true)
    (quiet : ∀ o ∈ t.outcomes, o.epoch ≠ m.epoch) (keeps : ¬ t.HandedOver m.epoch)
    (free : t.replica.deferred = none)
    (kept : t.replica.window.put (.consensus s'.machine) = .ok w) :
    (t.absorb services w s'.toContext).Stage m.epoch := by
  by_cases hopen : s'.machine.IsOpen
  · have hnone := (leaves.opened hopen).2
    have hundecided : w.isUndecided m.epoch = true :=
      (Window.isUndecided_put kept).trans undecided
    refine .running (Window.holds_put_self kept) leaves.epoch hopen hundecided ?_ ?_ free
    · rw [outcomes_absorb, hnone, List.append_nil]
      exact quiet
    · rw [handedOver_absorb, hnone]
      simpa using keeps
  · obtain ⟨valid, locked, rest, houtcomes, -⟩ := leaves.closes opened hopen
    have hmem : Outcome.finished m.epoch valid locked ∈ s'.toContext.outcomes :=
      houtcomes ▸ List.mem_cons_self
    exact .ended (List.mem_append_right _ hmem)
      (handedOver_absorb.mpr (.inr ⟨valid, locked, hmem⟩)) free

/-- An open last epoch runs on while another one acts. -/
theorem stage_of_other {m₀ : Machine} (other : m.epoch ≠ m₀.epoch)
    (own : ∀ o ∈ s'.toContext.outcomes, o.epoch = m.epoch) (held : w.Holds (.consensus m₀))
    (opened : m₀.IsOpen) (undecided : t.replica.window.isUndecided m₀.epoch = true)
    (quiet : ∀ o ∈ t.outcomes, o.epoch ≠ m₀.epoch) (keeps : ¬ t.HandedOver m₀.epoch)
    (free : t.replica.deferred = none)
    (kept : t.replica.window.put (.consensus s'.machine) = .ok w) :
    (t.absorb services w s'.toContext).Stage m₀.epoch := by
  have hundecided : w.isUndecided m₀.epoch = true := (Window.isUndecided_put kept).trans undecided
  have hnone : ∀ o ∈ s'.toContext.outcomes, o.epoch ≠ m₀.epoch :=
    fun o ho heq => other ((own o ho).symm.trans heq)
  refine .running held rfl opened hundecided ?_ ?_ free
  · exact fun o ho => (List.mem_append.mp ho).elim (quiet o) (hnone o)
  · rw [handedOver_absorb]
    rintro (hold | ⟨valid, locked, hnew⟩)
    · exact keeps hold
    · exact hnone _ hnew rfl

/-- **A call on one epoch** lets the last one run on, or brings its end onto the queue. -/
theorem Passing.acted (h : t.Passing services)
    (serves : t.replica.window.Serves e (.consensus m))
    (ran : (t.replica.host services).Ran (t.replica.chain, t.world) m s')
    (kept : t.replica.window.put (.consensus s'.machine) = .ok w) :
    (t.absorb services w s'.toContext).Passing services := by
  have hown : ∀ o ∈ s'.toContext.outcomes, o.epoch = m.epoch :=
    fun o ho => ran.left.leaves.epoch_of_mem ho
  obtain ⟨i, -, hw⟩ := Window.put_eq kept
  obtain ⟨last, hlast, hstage⟩ := h.stage
  have hlastw : w.lastEpoch = some last := (Window.lastEpoch_put kept).trans hlast
  refine ⟨h.kept.acted serves.source ran kept, last, hlastw, ?_⟩
  cases hstage with
  | @running m₀ held epoch opened undecided quiet keeps free =>
    subst epoch
    by_cases hsame : m.epoch = m₀.epoch
    · -- no two instances are of one epoch, so the call was on the last one
      have hm : Instance.consensus m = .consensus m₀ :=
        serves.own _ held (hsame.symm.trans serves.epoch)
      cases hm
      exact stage_of_open opened ran.left.leaves undecided quiet keeps free kept
    · have hlive : t.replica.window.isLive m₀.epoch = true := by
        unfold Window.isLive
        rw [undecided, hlast]
        simp [Window.upTo]
      have hother : m₀.epoch ≠ e := fun heq => hsame (serves.epoch.trans heq.symm)
      have hheld := serves.keeps held hlive hother kept (ran.sane.epoch.trans serves.epoch)
      exact stage_of_other hsame hown hheld opened undecided quiet keeps free kept
  | ended queued handed free => exact .ended (List.mem_append_left _ queued) handed.absorb free
  | waiting handed waits full =>
    refine .waiting handed.absorb waits ?_
    show w.isFull = true
    rw [hw]
    exact full
  | cutOff limit free =>
    refine .cutOff ?_ free
    show w.CutsOff last
    rw [hw]
    exact limit

/-! ### Starting the next epoch -/

/-- The next epoch is above every decided one. -/
theorem Kept.undecided_next (h : t.Kept services) (next : t.replica.window.nextEpoch = .ok e) :
    t.replica.window.isUndecided e = true := by
  have hle : Window.upTo t.replica.window.lastDecided ≤ e.toNat := by
    rw [Window.toNat_nextEpoch next]
    cases hdecided : t.replica.window.lastDecided with
    | none => exact Nat.zero_le _
    | some d => exact (h.decided d hdecided).1
  exact decide_eq_true hle

theorem Kept.advanced (h : t.Kept services) (next : t.replica.window.nextEpoch = .ok e) :
    (t.advanced e).Kept services where
  delivering := { h.delivering with }
  sync := h.sync
  held inst hinst := by
    obtain ⟨m, rfl, hm⟩ := h.held inst hinst
    exact ⟨m, rfl, hm.imp_right fun hbegun => hbegun.advance next⟩
  queued o ho := (h.queued o ho).advance next
  handed d hd := (h.handed d hd).advance next
  decided d hd := (h.decided d hd).advance next

/-- The start of an epoch hands nothing over. -/
theorem handedOver_recordStart {d : Epoch} {carried : Carried} :
    HandedOver { t with records := t.records ++ [Record.started d carried] } e ↔
      t.HandedOver e := by
  simp [HandedOver]

theorem Kept.recordStart (h : t.Kept services) (d : Epoch) (carried : Carried) :
    Kept services { t with records := t.records ++ [Record.started d carried] } :=
  { h with
    delivering := { h.delivering with }
    handed := fun e he => h.handed e (handedOver_recordStart.mp he) }

/-- The outcomes of an epoch that starts were accounted for while it waited; a new one has none. -/
theorem Kept.outcomes_start_le (h : t.Kept services)
    (found : t.replica.window.instance? e = .ok (some (.consensus m)) ∨
      .consensus m = t.replica.window.factory.create e) (idle : m.phase = .inactive)
    (epoch : s'.machine.epoch = m.epoch) (started : s'.machine.phase ≠ .inactive)
    (few : s'.toContext.outcomes.length ≤ 2)
    (quiet : m.pending = [] → s'.toContext.outcomes = [])
    (kept : { t.replica.window with lastEpoch := some e }.put (.consensus s'.machine) = .ok w) :
    s'.toContext.outcomes.length + 2 * w.idle ≤ 2 * t.replica.window.idle := by
  have hstarted : (Instance.consensus s'.machine).started = true := decide_eq_true started
  obtain ⟨hle, hlt⟩ := Window.idle_put (x := .consensus m) kept hstarted
  have hle : w.idle ≤ t.replica.window.idle := hle
  rcases found with hfound | hnew
  · have hwaited : (Instance.consensus m).started = false := by
      simp [Instance.started, Machine.started, idle]
    have hfewer : w.idle < t.replica.window.idle :=
      hlt h.delivering.placed (Window.instance_cases hfound).1 epoch.symm hwaited
    omega
  · have hpending : m.pending = [] := by
      unfold Factory.create at hnew
      rw [h.sync] at hnew
      cases hnew
      rfl
    rw [quiet hpending, List.length_nil]
    omega

/-- What the start of the next epoch comes to: it was idle, is open at first, and acts on messages
that waited. -/
structure Opening (services : Services τ) (t : Turn τ) (e : Epoch) (carried : Carried)
    (m : Machine) (s' : Step (Chain × τ)) : Prop where
  epoch : m.epoch = e
  idle : m.phase = .inactive
  sound : (t.replica.host services).Sound (fun _ => True) m
  done : (t.replica.host services).start carried.valid carried.locked ⟨t.context, m⟩ = .ok s'
  leaves : (m.opened carried.valid carried.locked).Leaves s'.machine s'.toContext.outcomes
  started : s'.machine.phase ≠ .inactive
  quiet : m.pending = [] → s'.toContext.outcomes = []

/-- The next epoch starts. -/
theorem Kept.start (h : t.Kept services) {carried : Carried} {inst inst' : Instance}
    {c : Context (Chain × τ)} (next : t.replica.window.nextEpoch = .ok e)
    (limit : ¬ t.replica.window.CutsOff e)
    (found : t.replica.window.instance? e = .ok (some inst) ∨
      inst = t.replica.window.factory.create e)
    (done : inst.start (t.replica.host services) carried.valid carried.locked t.context =
      .ok (inst', c))
    (kept : { t.replica.window with lastEpoch := some e }.put inst' = .ok w) :
    ∃ m s', inst = .consensus m ∧ inst' = .consensus s'.machine ∧ c = s'.toContext ∧
      Opening services t e carried m s' ∧
      ({ t with records := t.records ++ [Record.started e carried] }.absorb services w
        s'.toContext).Kept services := by
  obtain ⟨m, rfl, hm, hsound⟩ :=
    h.source (found.imp_left fun hfound => (Window.instance_cases hfound).1)
  obtain rfl : m.epoch = e := by
    rcases found with hfound | hcreated
    · exact (Window.instance_cases hfound).2
    · exact (congrArg Instance.epoch hcreated).trans (Factory.epoch_create _ _)
  have hidle : m.phase = .inactive := hm.resolve_right (Window.not_begun_next next)
  obtain ⟨s', hstart, rfl, rfl⟩ := Instance.ofStep_eq_ok done
  obtain ⟨hleaves, hstarted, hquiet⟩ := Host.start_leaves hsound hidle hstart
  have hsane := Host.start_sane hsound (fun _ _ _ _ => trivial) (fun _ _ _ _ => trivial) hstart
  have hkept := (h.advanced next).recordStart m.epoch carried
  have hbegun : (t.advanced m.epoch).replica.window.Begun m.epoch := ⟨Nat.lt_succ_self _, limit⟩
  exact ⟨m, s', rfl, rfl, rfl, ⟨rfl, hidle, hsound, hstart, hleaves, hstarted, hquiet⟩,
    hkept.absorb hsane (.inr hbegun) (fun o ho => hleaves.epoch_of_mem ho) kept⟩

/-- **The next epoch** runs, or ends at once on messages that waited for it, or is beyond the
limit. -/
theorem Kept.startEpoch (h : t.Kept services) {carried : Carried}
    (free : t.replica.deferred = none) (room : t.replica.window.isFull = false)
    (started : t.startEpoch services carried = .ok t') :
    t'.Passing services ∧ t'.unsettled ≤ t.unsettled := by
  obtain ⟨e, next, ⟨limit, rfl⟩ | ⟨limit, inst, inst', c, w, found, done, kept, rfl⟩⟩ :=
    startEpoch_cases room started
  · exact ⟨⟨h.advanced next, e, rfl, .cutOff limit free⟩, Nat.le_refl _⟩
  have hnew := Window.not_begun_next next
  obtain ⟨m, s', rfl, rfl, rfl, hopening, hkept⟩ := h.start next limit found done kept
  obtain rfl := hopening.epoch
  refine ⟨⟨hkept, m.epoch, ?_, ?_⟩, ?_⟩
  · obtain ⟨_, -, rfl⟩ := Window.put_eq kept
    rfl
  · -- nothing is known of an epoch before it has begun
    refine stage_of_open (t := { t.advanced m.epoch with
      records := t.records ++ [Record.started m.epoch carried] })
      (m := m.opened carried.valid carried.locked) (.inl rfl) hopening.leaves
      (h.undecided_next next) ?_ ?_ free kept
    · exact fun o ho heq => hnew (heq ▸ h.queued o ho)
    · exact fun hover => hnew (h.handed _ (handedOver_recordStart.mp hover))
  · have hfew : s'.toContext.outcomes.length ≤ 2 :=
      Nat.le_trans (Nat.le_add_right _ _) hopening.leaves.few
    have hrounds := h.outcomes_start_le found hopening.idle hopening.leaves.epoch
      hopening.started hfew hopening.quiet kept
    show (t.outcomes ++ s'.toContext.outcomes).length + 2 * w.idle ≤
      t.outcomes.length + 2 * t.replica.window.idle
    rw [List.length_append]
    omega

/-- The end of the last epoch leads to the next one, now or once there is room. -/
theorem Kept.startOrDefer (h : t.Kept services) {carried : Carried}
    (last : t.replica.window.lastEpoch = some e) (handed : t.HandedOver e)
    (free : t.replica.window.isFull = false → t.replica.deferred = none)
    (settled : t.startOrDefer services carried = .ok t') :
    t'.Passing services ∧ t'.unsettled ≤ t.unsettled := by
  rcases startOrDefer_cases settled with ⟨full, rfl⟩ | ⟨room, settled⟩
  · have hkept : Kept services { t with replica.deferred := some carried } :=
      { h with delivering := { h.delivering with } }
    exact ⟨⟨hkept, e, last, .waiting handed rfl full⟩, Nat.le_refl _⟩
  · exact h.startEpoch (free room) room settled

end Turn

end EpochConsensus
