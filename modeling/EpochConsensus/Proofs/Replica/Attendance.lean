import EpochConsensus.Proofs.Replica.Succession

/-! # What becomes of epochs

What every stride keeps of the epochs that have begun: while undecided they are in their slots, none
is open but the last one, and none has ended with a decision that was lost (`Attended`).  It holds
before the first call (`rests_start`) and after every one (`Rests.run`).
-/
namespace EpochConsensus.Turn

variable {τ : Type} {services : Services τ} {t t' : Turn τ} {e : Epoch} {m : Machine}
  {s' : Step (Chain × τ)} {w : Window} {carried : Carried} {rest : List Outcome}

/-- What every stride keeps of the epochs that have begun. -/
structure Attended (services : Services τ) (t : Turn τ) : Prop where
  kept : t.Kept services
  slots : 0 < t.replica.window.capacity
  /-- While undecided they are in their slots. -/
  seated : ∀ e, t.replica.window.isUndecided e = true → t.replica.window.Begun e →
    ∃ m, t.replica.window.Holds (.consensus m) ∧ m.epoch = e ∧ m.phase ≠ .inactive
  /-- None is open but the last one, and that only until its end is left to settle. -/
  opened : ∀ m, t.replica.window.Holds (.consensus m) → m.IsOpen →
    t.replica.window.lastEpoch = some m.epoch ∧ t.replica.deferred = none ∧
      ∀ o ∈ t.outcomes, o.epoch ≠ m.epoch
  /-- While undecided they have not ended with a decision, unless that is left to settle. -/
  concluded : ∀ m, t.replica.window.Holds (.consensus m) →
    t.replica.window.isUndecided m.epoch = true → m.decision = none ∨ m.phase = .commit ∨
      ∃ b, .decided m.epoch b ∈ t.outcomes

/-! ### Acting -/

/-- A begun and undecided epoch is live. -/
theorem isLive_of_begun (undecided : t.replica.window.isUndecided e = true)
    (begun : t.replica.window.Begun e) : t.replica.window.isLive e = true :=
  Bool.and_eq_true_iff.mpr ⟨undecided, decide_eq_true begun.1⟩

/-- A new epoch is neither open nor decided. -/
theorem Kept.created (h : t.Kept services)
    (created : .consensus m = t.replica.window.factory.create e) :
    m.phase = .inactive ∧ m.decision = none := by
  unfold Factory.create at created
  rw [h.sync] at created
  cases created
  exact ⟨rfl, rfl⟩

/-- What answers for an epoch is open only if the epoch is the last one. -/
theorem Attended.last_of_open (h : t.Attended services)
    (serves : t.replica.window.Serves e (.consensus m)) (opened : m.IsOpen) :
    t.replica.window.lastEpoch = some m.epoch ∧ t.replica.deferred = none := by
  rcases serves.source with hheld | hcreated
  · obtain ⟨hlast, hfree, -⟩ := h.opened m hheld opened
    exact ⟨hlast, hfree⟩
  · have hphase := (h.kept.created hcreated).1
    rcases opened with hready | hleft
    · rw [hready] at hphase
      cases hphase
    · rw [hleft] at hphase
      cases hphase

/-- What answers for an undecided epoch has decided only if it is still to hand on the block. -/
theorem Attended.concluded_of_serves (h : t.Attended services) (quiet : t.outcomes = [])
    (serves : t.replica.window.Serves e (.consensus m))
    (undecided : t.replica.window.isUndecided m.epoch = true) :
    m.decision = none ∨ m.phase = .commit := by
  rcases serves.source with hheld | hcreated
  · have hbefore := h.concluded m hheld undecided
    rw [quiet] at hbefore
    simpa using hbefore
  · exact .inl (h.kept.created hcreated).2

theorem Attended.acted (h : t.Attended services) (quiet : t.outcomes = [])
    (serves : t.replica.window.Serves e (.consensus m))
    (ran : (t.replica.host services).Ran (t.replica.chain, t.world) m s')
    (kept : t.replica.window.put (.consensus s'.machine) = .ok w) :
    (t.absorb services w s'.toContext).Attended services := by
  have hplaced := h.kept.delivering.placed
  have hepoch : s'.machine.epoch = e := ran.sane.epoch.trans serves.epoch
  have hslots : 0 < w.capacity := Window.capacity_put kept ▸ h.slots
  refine ⟨h.kept.acted serves.source ran kept, hslots, ?_, ?_, ?_⟩
  · intro d undecided begun
    replace undecided := (Window.isUndecided_put kept).symm.trans undecided
    replace begun := (Window.begun_put kept).mp begun
    obtain ⟨x, hx, rfl, hstarted⟩ := h.seated d undecided begun
    by_cases hsame : x.epoch = e
    · -- the epoch that acts is the one in the slot, and stays started
      have hxm : Instance.consensus m = .consensus x := serves.own _ hx hsame
      cases hxm
      exact ⟨s'.machine, Window.holds_put_self kept, hepoch.trans hsame.symm,
        ran.started hstarted⟩
    · exact ⟨x, serves.keeps hx (isLive_of_begun undecided begun) hsame kept hepoch, rfl, hstarted⟩
  · intro x hx hopen
    rw [outcomes_absorb, quiet, List.nil_append]
    show w.lastEpoch = _ ∧ _
    rw [Window.lastEpoch_put kept]
    rcases Window.holds_put hplaced kept hx with hxs | ⟨hold, hother⟩
    · cases hxs
      obtain ⟨hopen', hnone⟩ := ran.left.leaves.opened hopen
      obtain ⟨hlast, hfree⟩ := h.last_of_open serves hopen'
      rw [hnone, ran.sane.epoch]
      exact ⟨hlast, hfree, by simp⟩
    · obtain ⟨hlast, hfree, -⟩ := h.opened x hold hopen
      refine ⟨hlast, hfree, fun o ho heq => hother ?_⟩
      exact heq.symm.trans ((ran.left.leaves.epoch_of_mem ho).trans ran.sane.epoch.symm)
  · intro x hx undecided
    rw [outcomes_absorb, quiet, List.nil_append]
    replace undecided := (Window.isUndecided_put kept).symm.trans undecided
    rcases Window.holds_put hplaced kept hx with hxs | ⟨hold, -⟩
    · cases hxs
      exact ran.concluded (h.concluded_of_serves quiet serves (ran.sane.epoch ▸ undecided))
    · have hbefore := h.concluded x hold undecided
      rw [quiet] at hbefore
      exact hbefore.imp_right fun hcommit => .inl (by simpa using hcommit)

/-! ### Starting the next epoch -/

/-- What is left to settle once the next epoch is due. -/
theorem Due.suffix (due : t.Due carried rest) : rest <:+ t.outcomes := by
  cases due with
  | first => exact List.suffix_refl _
  | next outcome => exact outcome ▸ List.suffix_cons _ _
  | resumed => exact List.suffix_refl _

/-- No decision is lost when the next epoch is due. -/
theorem Due.decided_mem (due : t.Due carried rest) {b : Block}
    (h : Outcome.decided e b ∈ t.outcomes) : .decided e b ∈ rest := by
  cases due with
  | first => exact h
  | next outcome =>
    rw [outcome] at h
    exact (List.mem_cons.mp h).resolve_left Outcome.noConfusion
  | resumed => exact h

/-- No epoch is open while the end of the last one is left to settle. -/
theorem Attended.closed_of_ended (h : t.Attended services) {valid locked : Option Certificate}
    (ended : .finished e valid locked ∈ t.outcomes) (last : t.replica.window.lastEpoch = some e)
    (held : t.replica.window.Holds (.consensus m)) : ¬ m.IsOpen := by
  intro hopen
  obtain ⟨hlast, -, hquiet⟩ := h.opened m held hopen
  obtain rfl := Option.some.inj (last.symm.trans hlast)
  exact hquiet _ ended rfl

/-- No epoch is open when the next one is due. -/
theorem Attended.closed (h : t.Attended services) (due : t.Due carried rest)
    (held : t.replica.window.Holds (.consensus m)) : ¬ m.IsOpen := by
  cases due with
  | first new =>
    intro hopen
    rw [(h.opened m held hopen).1] at new
    cases new
  | next outcome last => exact h.closed_of_ended (outcome ▸ List.mem_cons_self) last held
  | resumed waits =>
    intro hopen
    rw [(h.opened m held hopen).2.1] at waits
    cases waits

theorem Kept.settled (h : t.Kept services) (due : t.Due carried rest) :
    (t.settled rest).Kept services :=
  { h with
    delivering := { h.delivering with }
    queued := fun o ho => h.queued o (due.suffix.subset ho) }

/-- The next epoch has not decided yet. -/
theorem Attended.none_next (h : t.Attended services)
    (next : t.replica.window.nextEpoch = .ok m.epoch)
    (found : t.replica.window.instance? m.epoch = .ok (some (.consensus m)) ∨
      .consensus m = t.replica.window.factory.create m.epoch)
    (undecided : t.replica.window.isUndecided m.epoch = true) (idle : m.phase = .inactive) :
    m.decision = none := by
  rcases found with hfound | hcreated
  · rcases h.concluded m (Window.instance_cases hfound).1 undecided with hnone | hcommit | ⟨b, hb⟩
    · exact hnone
    · rw [idle] at hcommit
      cases hcommit
    · -- a decision of the epoch would be left to settle, but it has not begun
      exact absurd (h.kept.queued _ hb) (Window.not_begun_next next)
  · exact (h.kept.created hcreated).2

theorem Attended.start (h : t.Attended services) (due : t.Due carried rest)
    (room : t.replica.window.isFull = false) {inst inst' : Instance} {c : Context (Chain × τ)}
    (next : t.replica.window.nextEpoch = .ok e) (limit : ¬ t.replica.window.CutsOff e)
    (found : t.replica.window.instance? e = .ok (some inst) ∨
      inst = t.replica.window.factory.create e)
    (done : inst.start (t.replica.host services) carried.valid carried.locked t.context =
      .ok (inst', c))
    (kept : { t.replica.window with lastEpoch := some e }.put inst' = .ok w) :
    ({ t.settled rest with records := t.records ++ [Record.started e carried] }.absorb
      services w c).Attended services := by
  obtain ⟨m, s', rfl, rfl, rfl, hopening, hkept⟩ :=
    (h.kept.settled due).start next limit found done kept
  obtain rfl := hopening.epoch
  have hplaced : { t.replica.window with lastEpoch := some m.epoch : Window }.Placed :=
    h.kept.delivering.placed
  have hepoch : s'.machine.epoch = m.epoch := hopening.leaves.epoch
  have hslots : 0 < w.capacity := Window.capacity_put kept ▸ h.slots
  refine ⟨hkept, hslots, ?_, ?_, ?_⟩
  · intro d undecided begun
    replace undecided : t.replica.window.isUndecided d = true :=
      (Window.isUndecided_put kept).symm.trans undecided
    replace begun := (Window.begun_put kept).mp begun
    rcases (Window.begun_advance_iff next).mp begun with begun | ⟨rfl, -⟩
    · obtain ⟨x, hx, rfl, hstarted⟩ := h.seated d undecided begun
      exact ⟨x, hx.start h.kept.delivering.placed (isLive_of_begun undecided begun) room next kept
        hepoch, rfl, hstarted⟩
    · exact ⟨s'.machine, Window.holds_put_self kept, hepoch, hopening.started⟩
  · intro x hx hopen
    show w.lastEpoch = _ ∧ _
    rw [Window.lastEpoch_put kept]
    rcases Window.holds_put hplaced kept hx with hxs | ⟨hold, -⟩
    · cases hxs
      obtain ⟨-, hnone⟩ := hopening.leaves.opened hopen
      rw [outcomes_absorb, hnone, List.append_nil, hepoch]
      refine ⟨rfl, rfl, fun o ho heq => Window.not_begun_next next ?_⟩
      exact heq ▸ h.kept.queued o (due.suffix.subset ho)
    · exact absurd hopen (h.closed due hold)
  · intro x hx undecided
    rw [outcomes_absorb]
    replace undecided : t.replica.window.isUndecided x.epoch = true :=
      (Window.isUndecided_put kept).symm.trans undecided
    rcases Window.holds_put hplaced kept hx with hxs | ⟨hold, -⟩
    · cases hxs
      have hnone := h.none_next next found (hepoch ▸ undecided) hopening.idle
      rcases Host.start_concluded hopening.sound hopening.idle hnone hopening.done with
        hnone | hcommit | ⟨b, hb⟩
      · exact .inl hnone
      · exact .inr (.inl hcommit)
      · exact .inr (.inr ⟨b, List.mem_append_right _ hb⟩)
    · refine (h.concluded x hold undecided).imp_right (Or.imp_right ?_)
      rintro ⟨b, hb⟩
      exact ⟨b, List.mem_append_left _ (due.decided_mem hb)⟩

/-! ### Settling -/

/-- The oldest outcome is dropped, unless it is a decision on an undecided epoch. -/
theorem Attended.drop (h : t.Attended services) {o : Outcome} (queue : t.outcomes = o :: rest)
    (covered : ∀ e b, o = .decided e b → t.replica.window.isUndecided e = false) :
    Attended services { t with outcomes := rest } where
  kept := h.kept.drop queue
  slots := h.slots
  seated := h.seated
  opened x hx hopen := by
    obtain ⟨hlast, hfree, hquiet⟩ := h.opened x hx hopen
    exact ⟨hlast, hfree, fun o' ho' => hquiet o' (queue ▸ List.mem_cons_of_mem o ho')⟩
  concluded x hx undecided := by
    refine (h.concluded x hx undecided).imp_right (Or.imp_right ?_)
    rintro ⟨b, hb⟩
    rw [queue] at hb
    refine ⟨b, (List.mem_cons.mp hb).resolve_left fun heq => ?_⟩
    have hcovered := covered x.epoch b heq.symm
    rw [hcovered] at undecided
    cases undecided

/-- The next start is deferred at the end of the last epoch. -/
theorem Attended.defer (h : t.Attended services)
    (queue : t.outcomes = .finished e carried.valid carried.locked :: rest)
    (last : t.replica.window.lastEpoch = some e) :
    Attended services { t with replica.deferred := some carried, outcomes := rest } := by
  have hdropped := h.drop queue (by simp)
  exact { hdropped with
    kept := { hdropped.kept with delivering := { hdropped.kept.delivering with } }
    opened := fun x hx hopen =>
      absurd hopen (h.closed_of_ended (queue ▸ List.mem_cons_self) last hx) }

/-- The next epoch is beyond the limit. -/
theorem Attended.cutOff (h : t.Attended services) (due : t.Due carried rest)
    (next : t.replica.window.nextEpoch = .ok e) (limit : t.replica.window.CutsOff e) :
    ((t.settled rest).advanced e).Attended services where
  kept := (h.kept.settled due).advanced next
  slots := h.slots
  seated d undecided begun := by
    rcases (Window.begun_advance_iff next).mp begun with begun | ⟨-, hlimit⟩
    · exact h.seated d undecided begun
    · exact absurd limit hlimit
  opened x hx hopen := absurd hopen (h.closed due hx)
  concluded x hx undecided := by
    refine (h.concluded x hx undecided).imp_right (Or.imp_right ?_)
    rintro ⟨b, hb⟩
    exact ⟨b, due.decided_mem hb⟩

/-- A decided block is committed. -/
theorem Attended.deliver (h : t.Attended services) {b : Block} {chain : Chain}
    {committed : List Block} (queue : t.outcomes = .decided e b :: rest)
    (new : t.replica.window.finishEpoch e = .ok (w, true))
    (done : t.replica.chain.commit b = .ok (chain, committed)) :
    ({ t with outcomes := rest }.deliver e w chain committed).Attended services := by
  have hbegun : t.replica.window.Begun e :=
    h.kept.queued (.decided e b) (queue ▸ List.mem_cons_self)
  have hw := (Window.finishEpoch_eq new).2
  refine ⟨(h.kept.drop queue).deliver hbegun new done, hw ▸ h.slots, ?_, ?_, ?_⟩
  · intro d undecided begun
    obtain ⟨hlt, hbefore⟩ := Window.later_of_finishEpoch new undecided
    have begun : t.replica.window.Begun d := by
      replace begun : w.Begun d := begun
      rw [hw] at begun
      exact begun
    obtain ⟨x, hx, rfl, hstarted⟩ := h.seated d hbefore begun
    exact ⟨x, (Window.holds_later new (x := .consensus x) hlt).mpr hx, rfl, hstarted⟩
  · intro x hx hopen
    obtain ⟨y, hy, heq⟩ := Window.holds_finishEpoch new hx
    obtain ⟨m, rfl, -⟩ := h.kept.held y hy
    unfold Window.close at heq
    split at heq
    · cases heq
      simp [Machine.IsOpen, Machine.stop] at hopen
    · cases heq
      obtain ⟨hlast, hfree, hquiet⟩ := h.opened x hy hopen
      refine ⟨?_, hfree, fun o ho => hquiet o (queue ▸ List.mem_cons_of_mem _ ho)⟩
      show w.lastEpoch = _
      rw [hw]
      exact hlast
  · intro x hx undecided
    obtain ⟨hlt, hbefore⟩ := Window.later_of_finishEpoch new undecided
    have hheld := (Window.holds_later new (x := .consensus x) hlt).mp hx
    refine (h.concluded x hheld hbefore).imp_right (Or.imp_right ?_)
    rintro ⟨b', hb'⟩
    rw [queue] at hb'
    refine ⟨b', (List.mem_cons.mp hb').resolve_left fun heq => ?_⟩
    exact UInt64.ne_of_lt hlt (Outcome.decided.inj heq).1.symm

theorem Stride.attended (stride : Stride services (fun _ => True) t t')
    (h : t.Attended services) : t'.Attended services := by
  cases stride with
  | receive quiet claimed admitted done kept =>
    have hserves := Window.serves_of_claim h.kept.delivering.placed claimed
    obtain ⟨m, s', rfl, rfl, rfl, hran⟩ := h.kept.ran hserves.source (acts_receive t _) done
    exact h.acted quiet hserves hran kept
  | expire quiet found done kept =>
    have hserves := Window.serves_of_instance h.kept.delivering.placed found
    obtain ⟨m, s', rfl, rfl, rfl, hran⟩ := h.kept.ran hserves.source (acts_expire t _) done
    exact h.acted quiet hserves hran kept
  | late outcome covered =>
    exact h.drop outcome fun e b heq => (Outcome.decided.inj heq).1 ▸ covered
  | pass outcome other => exact h.drop outcome (by simp)
  | defer outcome last full => exact h.defer outcome last
  | start due room next limit found done kept => exact h.start due room next limit found done kept
  | cutOff due room next limit => exact h.cutOff due next limit
  | decide outcome new done => exact h.deliver outcome new done

theorem Strides.attended (strides : Strides services (fun _ => True) t t')
    (h : t.Attended services) : t'.Attended services := by
  induction strides with
  | refl => exact h
  | tail _ stride ih => exact stride.attended ih

/-! ### Calls -/

/-- A replica before its first epoch or with its last one in sight. -/
def Placid (services : Services τ) (t : Turn τ) : Prop :=
  t.replica.window.lastEpoch = none ∧ t.replica.window.isFull = false ∨ t.Passing services

/-- What holds between two calls. -/
structure Rests (services : Services τ) (t : Turn τ) : Prop where
  attended : t.Attended services
  quiet : t.outcomes = []
  atRest : t.AtRest
  placid : t.Placid services

/-- Before the first epoch starts a call on an epoch leaves nothing to settle. -/
theorem Kept.call_early (h : t.Kept services) (new : t.replica.window.lastEpoch = none)
    (room : t.replica.window.isFull = false) (quiet : t.outcomes = []) {inst : Option Instance}
    {act : Instance → Context (Chain × τ) → Except Fault (Instance × Context (Chain × τ))}
    (serves : ∀ i, inst = some i → t.replica.window.Serves e i) (acts : t.Acts services act)
    {u : Turn τ} (called : t.call services inst act = .ok u)
    (settled : u.settle services = .ok t') :
    t'.replica.window.lastEpoch = none ∧ t'.replica.window.isFull = false ∧ t'.outcomes = [] := by
  obtain ⟨hnew, hroom, hquiet⟩ : u.replica.window.lastEpoch = none ∧
      u.replica.window.isFull = false ∧ u.outcomes = [] := by
    cases inst with
    | none =>
      cases called
      exact ⟨new, room, quiet⟩
    | some i =>
      obtain ⟨i', c, w, done, kept, rfl⟩ := call_some.mp called
      have hsource := (serves i rfl).source
      obtain ⟨m, s', rfl, rfl, rfl, hran⟩ := h.ran hsource acts done
      -- no epoch has begun, so this one only keeps what it receives
      obtain ⟨_, ⟨⟩, hidle, -⟩ := h.source hsource
      have hnot : ¬ t.replica.window.Begun m.epoch := fun hbegun => by
        have hturn := hbegun.1
        rw [new] at hturn
        exact Nat.not_lt_zero _ hturn
      have hnone := (hran.left.waits (hidle.resolve_right hnot)).2
      obtain ⟨_, -, rfl⟩ := Window.put_eq kept
      exact ⟨new, room, by rw [outcomes_absorb, quiet, hnone, List.nil_append]⟩
  rw [settle_of_quiet hquiet] at settled
  cases settled
  exact ⟨hnew, hroom, hquiet⟩

/-- Nothing is left to settle before a call, so that it is a path of strides as it is. -/
theorem Rests.strides (h : t.Rests services) {input : Input}
    (taken : t.take services input = .ok t') :
    Strides services (fun _ => True) t t' ∧ t'.AtRest := by
  have hsame : { t with outcomes := [] } = t := by rw [← h.quiet]
  exact hsame ▸ take_strides h.atRest input.carriesOnly_true taken

theorem Rests.take (h : t.Rests services) {input : Input}
    (taken : t.take services input = .ok t') : t'.Rests services := by
  obtain ⟨hstrides, hrest⟩ := h.strides taken
  have hattended := hstrides.attended h.attended
  have hkept := h.attended.kept
  rcases h.placid with ⟨hnew, hroom⟩ | hpassing
  · rcases take_cases hkept.delivering.placed h.quiet taken with
      rfl | ⟨-, u, hu, settled⟩ | ⟨e, inst, act, u, hserves, hacts, called, settled⟩
    · exact h
    · obtain ⟨hpassing, -⟩ := hkept.startEpoch (h.atRest.free hroom) hroom hu
      obtain ⟨hpassing', hquiet⟩ := hpassing.settle settled
      exact ⟨hattended, hquiet, hrest, .inr hpassing'⟩
    · obtain ⟨hnew', hroom', hquiet⟩ :=
        hkept.call_early hnew hroom h.quiet hserves hacts called settled
      exact ⟨hattended, hquiet, hrest, .inl ⟨hnew', hroom'⟩⟩
  · obtain ⟨hpassing', hquiet⟩ := hpassing.take h.quiet taken
    exact ⟨hattended, hquiet, hrest, .inr hpassing'⟩

/-- **Every run** is a path of strides, and comes to rest. -/
theorem Rests.run (h : t.Rests services) {inputs : List Input}
    (ran : t.run services inputs = .ok t') :
    t'.Rests services ∧ Strides services (fun _ => True) t t' := by
  refine foldlM_keeps (motive := fun u => u.Rests services ∧ Strides services (fun _ => True) t u)
    ?_ ran ⟨h, .refl⟩
  intro u input u' _ ⟨hu, hstrides⟩ taken
  exact ⟨hu.take taken, hstrides.trans (hu.strides taken).1⟩

/-- Before any call. -/
theorem rests_start {id : ProcessId} {count : Nat} {config : Config} {r : Replica}
    (created : Replica.create id count config = .ok r) (sync : config.model = .sync) (world : τ) :
    (Turn.start r world).Rests services := by
  have hfresh := Replica.fresh_create created
  obtain ⟨hnew, hroom⟩ := room_start created world
  have hnone : ∀ inst, ¬ (Turn.start r world).replica.window.Holds inst := fun inst hinst => by
    rw [show (Turn.start r world).replica.window = .ofConfig config id from hfresh.window] at hinst
    exact Window.not_holds_ofConfig config id hinst
  have hslots : 0 < (Turn.start r world).replica.window.capacity := by
    have hroom : ¬ (Turn.start r world).replica.window.capacity ≤ _ := of_decide_eq_false hroom
    omega
  refine ⟨⟨kept_start hfresh sync world, hslots, ?_, ?_, ?_⟩, rfl,
    atRest_start hfresh.deferred world, .inl ⟨hnew, hroom⟩⟩
  · rintro e - ⟨hturn, -⟩
    rw [hnew] at hturn
    exact absurd hturn (Nat.not_lt_zero _)
  · exact fun m hm => absurd hm (hnone _)
  · exact fun m hm => absurd hm (hnone _)

end EpochConsensus.Turn
