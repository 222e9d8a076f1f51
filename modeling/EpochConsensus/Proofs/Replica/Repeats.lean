import EpochConsensus.Proofs.Epoch.Repeats
import EpochConsensus.Proofs.Replica.Attendance

/-! # A message that is delivered twice

Every message is relayed, so it arrives many times.  On a replica whose requests for timeouts are
never refused, handling a message of a started epoch for a second time changes neither the replica
nor anything outside (`Turn.run_repeats`).  The epoch itself has no more use for the message
(`Host.receive_repeats`); and however many epochs end and start in between, the message still
reaches this epoch, as it was left or closed since, or nobody (`Window.Recalls`).
-/
namespace EpochConsensus

/-! ### Requests -/

/-- No request of a machine is marked as refused. -/
def Instance.Unrefused : Instance → Prop
  | consensus m => m.timers.Unrefused
  | probe _ => True

namespace Instance

variable {σ : Type} {p : Host σ} {inst inst' : Instance} {c c' : Context σ}

theorem unrefused_create (f : Factory) (e : Epoch) : (f.create e).Unrefused := by
  unfold Factory.create
  split
  · intro kind
    cases kind <;> exact nofun
  · trivial

theorem Unrefused.stop (h : inst.Unrefused) : inst.stop.Unrefused := by
  cases inst <;> exact h

theorem Unrefused.receive (h : inst.Unrefused) (obliging : p.Obliging) {x : Message}
    (done : inst.receive p x c = .ok (inst', c')) : inst'.Unrefused := by
  cases inst with
  | consensus m =>
    obtain ⟨s', hs', rfl, -⟩ := ofStep_eq_ok done
    exact obliging.receive (s := ⟨c, m⟩) h hs'
  | probe b =>
    simp only [Instance.receive, pure, Except.pure] at done
    obtain ⟨d, -, done⟩ := bind_eq_ok.mp done
    cases done
    trivial

theorem Unrefused.expire (h : inst.Unrefused) (obliging : p.Obliging) {t : Timeout}
    (done : inst.expire p t c = .ok (inst', c')) : inst'.Unrefused := by
  cases inst with
  | consensus m =>
    obtain ⟨s', hs', rfl, -⟩ := ofStep_eq_ok done
    exact obliging.expire (s := ⟨c, m⟩) h hs'
  | probe b =>
    cases done
    trivial

theorem Unrefused.start (h : inst.Unrefused) (obliging : p.Obliging)
    {valid locked : Option Certificate} (done : inst.start p valid locked c = .ok (inst', c')) :
    inst'.Unrefused := by
  cases inst with
  | consensus m =>
    obtain ⟨s', hs', rfl, -⟩ := ofStep_eq_ok done
    exact obliging.start (s := ⟨c, m⟩) h hs'
  | probe b =>
    cases done
    trivial

/-- No start makes an instance one of another epoch. -/
theorem epoch_start {valid locked : Option Certificate}
    (done : inst.start p valid locked c = .ok (inst', c')) : inst'.epoch = inst.epoch := by
  cases inst with
  | consensus m =>
    obtain ⟨s', hs', rfl, -⟩ := ofStep_eq_ok done
    exact Host.start_epoch (s := ⟨c, m⟩) hs'
  | probe b =>
    cases done
    rfl

end Instance

namespace Window

variable {w w' : Window} {inst : Instance} {e : Epoch}

/-- No request of any epoch is marked as refused. -/
def Unrefused (w : Window) : Prop := ∀ x, w.Holds x → x.Unrefused

theorem Unrefused.put (h : w.Unrefused) (placed : w.Placed) (unrefused : inst.Unrefused)
    (kept : w.put inst = .ok w') : w'.Unrefused := by
  intro x hx
  rcases holds_put placed kept hx with rfl | ⟨hold, -⟩
  · exact unrefused
  · exact h x hold

theorem Unrefused.finishEpoch (h : w.Unrefused) (new : w.finishEpoch e = .ok (w', true)) :
    w'.Unrefused := by
  intro x hx
  obtain ⟨y, hy, rfl⟩ := holds_finishEpoch new hx
  unfold close
  split
  · exact (h y hy).stop
  · exact h y hy

/-- Neither is one of an epoch that is new. -/
theorem Unrefused.source (h : w.Unrefused)
    (source : w.Holds inst ∨ inst = w.factory.create e) : inst.Unrefused := by
  rcases source with hheld | rfl
  · exact h inst hheld
  · exact Instance.unrefused_create _ _

end Window

/-- The scheduler takes every timeout on. -/
def Services.Obliging {τ : Type} (services : Services τ) : Prop :=
  ∀ timeout world, (services.accepts timeout world).1 = true

/-- So does the replica, for its epochs. -/
theorem Services.Obliging.host {τ : Type} {services : Services τ} (h : services.Obliging)
    (r : Replica) : (r.host services).Obliging := by
  rintro timeout ⟨chain, world⟩
  simp only [Replica.host]
  split
  · exact h timeout world
  · rfl

/-- In a system that is not empty somebody proposes in every epoch. -/
theorem Replica.exists_proposer {τ : Type} (services : Services τ) (r : Replica) (h : 0 < r.count)
    (e : Epoch) : ∃ q, (r.host services).proposer e = .ok q := by
  show ∃ q, rotation r.count e = .ok q
  unfold rotation remainder
  rw [if_neg (Nat.ne_of_gt h)]
  exact ⟨_, rfl⟩

namespace Turn

variable {τ : Type} {services : Services τ} {heard : Endorsement → Prop} {t t' u : Turn τ}
  {e : Epoch} {m : Machine} {x : Message} {rest : List Outcome} {o : Outcome} {carried : Carried}

theorem Stride.unrefused (stride : Stride services heard t t') (obliging : services.Obliging)
    (placed : t.replica.window.Placed) (h : t.replica.window.Unrefused) :
    t'.replica.window.Unrefused := by
  have hobliging := obliging.host t.replica
  cases stride with
  | receive quiet claimed admitted done kept =>
    exact h.put placed ((h.source (Window.source_of_claim claimed).2).receive hobliging done) kept
  | expire quiet found done kept =>
    exact h.put placed ((h _ (Window.instance_cases found).1).expire hobliging done) kept
  | late | pass | defer | cutOff => exact h
  | @start _ _ e inst inst' c w due room next limit found done kept =>
    have hsource := h.source (found.imp_left fun hfound => (Window.instance_cases hfound).1)
    exact Window.Unrefused.put (w := { t.replica.window with lastEpoch := some e }) h placed
      (hsource.start hobliging done) kept
  | decide outcome new done => exact h.finishEpoch new

/-- The host of the epochs stays the same. -/
theorem Stride.host (stride : Stride services heard t t') :
    t'.replica.host services = t.replica.host services := by
  cases stride <;> rfl

/-- Throughout a run that starts with a new replica no request is marked as refused. -/
theorem Strides.unrefused (strides : Strides services (fun _ => True) t t')
    (obliging : services.Obliging) (attended : t.Attended services)
    (h : t.replica.window.Unrefused) : t'.replica.window.Unrefused := by
  induction strides with
  | refl => exact h
  | tail strides stride ih =>
    exact stride.unrefused obliging (Strides.attended strides attended).kept.delivering.placed ih

theorem Strides.host (strides : Strides services heard t t') :
    t'.replica.host services = t.replica.host services := by
  induction strides with
  | refl => rfl
  | tail _ stride ih => exact stride.host.trans ih

/-! ### Settling -/

/-- The next epoch starts, or waits. -/
theorem recalls_startOrDefer (h : t.replica.window.Recalls m)
    (settled : t.startOrDefer services carried = .ok t') : t'.replica.window.Recalls m := by
  rcases startOrDefer_cases settled with ⟨-, rfl⟩ | ⟨room, settled⟩
  · exact h
  obtain ⟨e, next, ⟨-, rfl⟩ | ⟨-, inst, inst', c, w, found, done, kept, rfl⟩⟩ :=
    startEpoch_cases room settled
  · exact h.advance next
  · have hinst : inst.epoch = e := by
      rcases found with hfound | rfl
      · exact (Window.instance_cases hfound).2
      · exact Factory.epoch_create _ _
    refine (h.advance next).put kept ?_
    rw [Instance.epoch_start done, hinst, UInt64.lt_iff_toNat_lt, Window.toNat_nextEpoch next]
    exact h.begun.1

/-- A decision closes epochs, and lets the next one start. -/
theorem recalls_onDecided {b : Block} (h : t.replica.window.Recalls m)
    (settled : t.onDecided services e b = .ok t') : t'.replica.window.Recalls m := by
  rcases onDecided_cases settled with ⟨-, rfl⟩ | ⟨w, chain, committed, new, -, settled⟩
  · exact h
  have hdelivered : (t.deliver e w chain committed).replica.window.Recalls m := h.finishEpoch new
  rcases resume_cases settled with ⟨-, rfl⟩ | ⟨carried, -, settled⟩
  · exact hdelivered
  · exact recalls_startOrDefer (t := { t.deliver e w chain committed with
      replica.deferred := none }) hdelivered settled

theorem recalls_onOutcome (h : t.replica.window.Recalls m)
    (settled : t.onOutcome services o = .ok t') : t'.replica.window.Recalls m := by
  cases o with
  | decided e b => exact recalls_onDecided h settled
  | finished e valid locked =>
    simp only [onOutcome] at settled
    split at settled
    · exact recalls_startOrDefer h settled
    · cases settled
      exact h

/-- **However much is settled**, an epoch stays as it was left, or is closed, or loses its slot to a
later one. -/
theorem recalls_settleUpTo {rounds : Nat} (h : t.replica.window.Recalls m)
    (settled : settleUpTo services rounds t = .ok t') : t'.replica.window.Recalls m := by
  refine settleUpTo_keeps (motive := fun u => u.replica.window.Recalls m) ?_ settled h
  intro u o rest u' hu queue hround
  exact recalls_onOutcome (t := { u with outcomes := rest }) hu hround

/-! ### Calls -/

/-- The two come to the same, but for what is on record. -/
structure Agrees (t t' : Turn τ) : Prop where
  replica : t'.replica = t.replica
  world : t'.world = t.world
  actions : t'.actions = t.actions
  outcomes : t'.outcomes = t.outcomes

/-- An epoch that can receive a message is called with it. -/
theorem call_of_received (placed : t.replica.window.Placed)
    (held : t.replica.window.Holds (.consensus m)) {s : Step (Chain × τ)}
    (received : (t.replica.host services).receive x ⟨t.context, m⟩ = .ok s)
    (same : s.machine.epoch = m.epoch) :
    ∃ w, t.replica.window.put (.consensus s.machine) = .ok w ∧
      t.call services (some (.consensus m)) (·.receive (t.replica.host services) x) =
        .ok (t.absorb services w s.toContext) := by
  obtain ⟨w, kept⟩ : ∃ w, t.replica.window.put (.consensus s.machine) = .ok w :=
    Window.exists_put placed held same
  refine ⟨w, kept, call_some.mpr ⟨.consensus s.machine, s.toContext, w, ?_, kept, rfl⟩⟩
  simp only [Instance.receive, Instance.ofStep, received, bind, Except.bind, pure, Except.pure]

/-- An epoch that has no use for a message leaves the replica as it is. -/
theorem call_idle (placed : t.replica.window.Placed)
    (held : t.replica.window.Holds (.consensus m))
    (idle : (t.replica.host services).Idle x m (t.replica.chain, t.world)) :
    ∃ u, t.call services (some (.consensus m)) (·.receive (t.replica.host services) x) = .ok u ∧
      t.Agrees u := by
  obtain ⟨c, received, hworld, refused⟩ := idle
  obtain ⟨w, kept, called⟩ := call_of_received placed held received rfl
  rw [Window.put_of_holds placed held] at kept
  cases kept
  have hactions : c.effects.toList.filterMap (t.replica.action? services) = [] := by
    refine List.filterMap_eq_nil_iff.mpr fun e he => ?_
    obtain ⟨id, rfl⟩ := refused e (Array.mem_toList_iff.mp he)
    rfl
  have houtcomes : c.effects.toList.filterMap Outcome.ofEffect? = [] := by
    refine List.filterMap_eq_nil_iff.mpr fun e he => ?_
    obtain ⟨id, rfl⟩ := refused e (Array.mem_toList_iff.mp he)
    rfl
  refine ⟨t.absorb services t.replica.window c, called, ?_, ?_, ?_, ?_⟩
  · simp [absorb, hworld]
  · simp [absorb, hworld]
  · simp [absorb, hactions]
  · simp [absorb, houtcomes]

/-- The message is dropped, or the epoch that it goes to has no use for it. -/
def Spends (services : Services τ) (t : Turn τ) (x : Message) (e : Epoch) : Prop :=
  t.replica.window.claim? e = .ok none ∨
    ∃ m, t.replica.window.claim? e = .ok (some (.consensus m)) ∧
      t.replica.window.Holds (.consensus m) ∧
      (t.replica.host services).Idle x m (t.replica.chain, t.world)

/-- Such a message changes nothing. -/
theorem Spends.take (h : t.Spends services x e) (epoch : x.epoch? = some e)
    (placed : t.replica.window.Placed) (quiet : t.outcomes = []) :
    ∃ t', t.take services (.message x) = .ok t' ∧ t.Agrees t' := by
  obtain ⟨u, reacted, hagrees⟩ : ∃ u, t.react services (.message x) = .ok u ∧ t.Agrees u := by
    rw [react_message epoch]
    rcases h with hnone | ⟨m, hclaimed, hheld, hidle⟩
    · rw [hnone]
      exact ⟨t, rfl, rfl, rfl, rfl, rfl⟩
    · rw [hclaimed]
      exact call_idle placed hheld hidle
  refine ⟨u, ?_, hagrees⟩
  rw [take_eq quiet, reacted]
  exact settle_of_quiet (hagrees.outcomes.trans quiet)

/-- It is of no use a second time either. -/
theorem Spends.agrees (h : t.Spends services x e) (agrees : t.Agrees t') :
    t'.Spends services x e := by
  unfold Spends
  rw [agrees.replica, agrees.world]
  exact h

/-- What is left of the epoch has no use for the message after the call. -/
theorem spends_of_recalls (recalls : t.replica.window.Recalls m)
    (idle : ∀ w, (t.replica.host services).Idle x m w) : t.Spends services x m.epoch := by
  rcases recalls.claim with hnone | ⟨m', hclaimed, hheld, rfl | rfl⟩
  · exact .inl hnone
  · exact .inr ⟨m', hclaimed, hheld, idle _⟩
  · exact .inr ⟨m.stop, hclaimed, hheld, Host.idle_of_same
      (Host.receive_of_finished (s := ⟨.start _, m.stop⟩) rfl x)⟩

/-- **The first call takes a message up**: it has no use for the message in the first place, or
nobody has once the call is over. -/
theorem Rests.spends (h : t.Rests services) (obliging : services.Obliging)
    (unrefused : t.replica.window.Unrefused) {q : ProcessId}
    (turn : (t.replica.host services).proposer e = .ok q) {inst : Instance}
    (claimed : t.replica.window.claim? e = .ok (some inst)) (started : inst.started = true)
    (epoch : x.epoch? = some e) (taken : t.take services (.message x) = .ok t') :
    t.Spends services x e ∨ t'.Spends services x e := by
  have hkept := h.attended.kept
  obtain ⟨hepoch, hheld⟩ : inst.epoch = e ∧ t.replica.window.Holds inst := by
    obtain ⟨hepoch, hheld | rfl⟩ := Window.source_of_claim claimed
    · exact ⟨hepoch, hheld⟩
    · rw [Instance.started_create] at started
      cases started
  obtain ⟨m, rfl, hbegun⟩ := hkept.held inst hheld
  obtain rfl : m.epoch = e := hepoch
  have hphase : m.phase ≠ .inactive := of_decide_eq_true started
  have hstrides := (h.strides taken).1
  rw [take_eq h.quiet, react_message epoch, claimed] at taken
  obtain ⟨u, called, settled⟩ := bind_eq_ok.mp taken
  obtain ⟨inst', c, w, done, kept, rfl⟩ := call_some.mp called
  obtain ⟨s', received, rfl, rfl⟩ := Instance.ofStep_eq_ok done
  have hrefuses : ∀ b w w', (t.replica.host services).addBlock b w = .ok (false, w') →
      w' = w := by
    rintro b ⟨chain, world⟩ w' answer
    simp only [Replica.host, pure, Except.pure] at answer
    obtain ⟨⟨chain', added⟩, hadd, answer⟩ := bind_eq_ok.mp answer
    cases answer
    rw [Chain.add_refused hadd]
  rcases Host.receive_repeats (obliging.host t.replica) hrefuses turn
    (hkept.delivering.sound _ hheld) hphase (unrefused _ hheld) epoch received with hidle | hidle
  · exact .inl (.inr ⟨m, claimed, hheld, hidle⟩)
  · refine .inr ?_
    have hsame : s'.machine.epoch = m.epoch := (Host.receive_bookings received).epoch
    have hrecalls : (t.absorb services w s'.toContext).replica.window.Recalls s'.machine :=
      .of_put hkept.delivering.placed (hsame ▸ hbegun.resolve_left hphase) kept
    rw [← hsame]
    refine spends_of_recalls (recalls_settleUpTo hrecalls settled) fun w => ?_
    rw [hstrides.host]
    exact hidle w

/-- **Delivering a message twice is the same as delivering it once.**  On a replica whose requests
for timeouts are never refused, a message of a started epoch, or one that is dropped since its slot
is taken, changes nothing when it is handled once more: neither the replica nor what it relies on,
and nothing is sent, requested or delivered. -/
theorem run_repeats {id : ProcessId} {count : Nat} {config : Config} {r : Replica} {world : τ}
    {inputs : List Input} (created : Replica.create id count config = .ok r)
    (sync : config.model = .sync) (obliging : services.Obliging)
    (ran : (Turn.start r world).run services inputs = .ok t) (epoch : x.epoch? = some e)
    (reached : t.replica.window.claim? e = .ok none ∨
      ∃ inst, t.replica.window.claim? e = .ok (some inst) ∧ inst.started = true)
    (taken : t.take services (.message x) = .ok t') :
    ∃ t'', t'.take services (.message x) = .ok t'' ∧ t''.replica = t'.replica ∧
      t''.world = t'.world ∧ t''.actions = t'.actions := by
  have hfresh := Replica.fresh_create created
  have hstart : (Turn.start r world).Rests services := rests_start created sync world
  obtain ⟨hrests, hstrides⟩ := hstart.run ran
  have hunrefused : t.replica.window.Unrefused := by
    refine hstrides.unrefused obliging hstart.attended fun y hy => ?_
    have hwindow : (Turn.start r world).replica.window = .ofConfig config id := hfresh.window
    exact absurd (hwindow ▸ hy) (Window.not_holds_ofConfig config id)
  have hrests' := hrests.take taken
  have hspends : t'.Spends services x e := by
    have hfirst : t.Spends services x e ∨ t'.Spends services x e := by
      rcases reached with hnone | ⟨inst, claimed, started⟩
      · exact .inl (.inl hnone)
      · obtain ⟨q, turn⟩ : ∃ q, (t.replica.host services).proposer e = .ok q := by
          rw [hstrides.host]
          exact r.exists_proposer services (hfresh.size ▸ Nat.zero_lt_of_lt hfresh.member) e
        exact hrests.spends obliging hunrefused turn claimed started epoch taken
    rcases hfirst with hfirst | hspends
    · obtain ⟨u, hu, hagrees⟩ :=
        hfirst.take epoch hrests.attended.kept.delivering.placed hrests.quiet
      rw [taken] at hu
      cases hu
      exact hfirst.agrees hagrees
    · exact hspends
  obtain ⟨t'', taken', hagrees⟩ :=
    hspends.take epoch hrests'.attended.kept.delivering.placed hrests'.quiet
  exact ⟨t'', taken', hagrees.replica, hagrees.world, hagrees.actions⟩

/-- The vote that ends the first epoch comes twice; only the first copy starts the next epoch. -/
theorem run_repeats_solo :
    let vote : Message := .vote ⟨0, 0, soloBlock.id, 0, ⟨.fill 64 1⟩, 0, none⟩
    ∃ t t' t'', (Turn.start soloReplica ()).run soloServices (soloInputs.take 2) = .ok t ∧
      t.take soloServices (.message vote) = .ok t' ∧
      t'.take soloServices (.message vote) = .ok t'' ∧
      t.replica.window.lastEpoch = some 0 ∧ t'.replica.window.lastEpoch = some 1 ∧
      t''.replica = t'.replica ∧ t''.actions = t'.actions := by
  intro vote
  obtain ⟨u, hcalls, hstate⟩ : ∃ u, ((Turn.start soloReplica ()).run soloServices
      (soloInputs.take 2) >>= fun t => do return (t, ← t.take soloServices (.message vote))) =
        .ok u ∧
      (u.1.replica.window.lastEpoch, u.2.replica.window.lastEpoch,
        (u.1.replica.window.claim? 0).toOption.join.map (·.started)) =
          (some 0, some 1, some true) :=
    exists_of_toOption (by decide +kernel)
  obtain ⟨t, ran, hcalls⟩ := bind_eq_ok.mp hcalls
  obtain ⟨t', taken, hcalls⟩ := bind_eq_ok.mp hcalls
  cases hcalls
  simp only [Prod.mk.injEq] at hstate
  obtain ⟨hbefore, hafter, hclaimed⟩ := hstate
  have hreached : ∃ inst, t.replica.window.claim? 0 = .ok (some inst) ∧ inst.started = true := by
    obtain ⟨inst, hinst, hstarted⟩ := Option.map_eq_some_iff.mp hclaimed
    cases hfound : t.replica.window.claim? 0 with
    | error fault => simp [hfound, Except.toOption] at hinst
    | ok found =>
      obtain rfl : found = some inst := by simpa [hfound, Except.toOption] using hinst
      exact ⟨inst, rfl, hstarted⟩
  obtain ⟨t'', taken', hreplica, -, hactions⟩ :=
    run_repeats (x := vote) create_solo rfl (fun _ _ => rfl) ran rfl (.inr hreached) taken
  exact ⟨t, t', t'', ran, taken, taken', hbefore, hafter, hreplica, hactions⟩

end Turn

end EpochConsensus
