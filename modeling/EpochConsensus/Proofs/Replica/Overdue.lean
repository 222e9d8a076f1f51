import EpochConsensus.Proofs.Epoch.Promptness
import EpochConsensus.Proofs.Replica.Attendance

/-! # Decisions that are overdue

The epochs of a replica share its store, but each one looks for its decided block only when it takes
in a block itself.  So a decision is `Overdue` once another epoch has brought the block that was
missing.  There is no other way for it to become so: see `Stride.overdue` for one stride and
`run_overdue` for runs.
-/
namespace EpochConsensus

/-- The answers of a replica leave its store alone, unless it takes a block. -/
theorem Replica.steady_host {τ : Type} (services : Services τ) (r : Replica) :
    (r.host services).Steady where
  accepts t b w := by
    simp only [Replica.host]
    split <;> rfl
  nextValue b w := rfl
  refused {x w w'} h b := by
    simp only [Replica.host, pure, Except.pure] at h
    obtain ⟨⟨chain, added⟩, hadd, h⟩ := bind_eq_ok.mp h
    cases h
    simp only [Replica.host, Chain.add_refused hadd]

namespace Turn

variable {τ : Type}

section
variable (services : Services τ)

/-- A live epoch has decided, and its block could be handed on. -/
def Overdue (t : Turn τ) (e : Epoch) : Prop :=
  t.replica.window.isLive e = true ∧ ∃ m, t.replica.window.Holds (.consensus m) ∧ m.epoch = e ∧
    (t.replica.host services).Ripe m (t.replica.chain, t.world)

/-- Another epoch than `e` receives a message, or starts, and adds a block to the store. -/
inductive Brings (e : Epoch) : Turn τ → Turn τ → Prop
  | receive {t : Turn τ} {d : Epoch} {inst inst' : Instance} {m : Message}
      {c : Context (Chain × τ)} {w : Window} (other : d ≠ e)
      (claimed : t.replica.window.claim? d = .ok (some inst))
      (done : inst.receive (t.replica.host services) m t.context = .ok (inst', c))
      (kept : t.replica.window.put inst' = .ok w) (adds : Host.Adds c) :
      Brings e t (t.absorb services w c)
  | start {t : Turn τ} {carried : Carried} {rest : List Outcome} {d : Epoch}
      {inst inst' : Instance} {c : Context (Chain × τ)} {w : Window} (other : d ≠ e)
      (due : t.Due carried rest) (next : t.replica.window.nextEpoch = .ok d)
      (done : inst.start (t.replica.host services) carried.valid carried.locked t.context =
        .ok (inst', c))
      (kept : { t.replica.window with lastEpoch := some d }.put inst' = .ok w)
      (adds : Host.Adds c) :
      Brings e t ({ t.settled rest with records := t.records ++ [Record.started d carried] }.absorb
        services w c)

end

variable {services : Services τ} {t t' : Turn τ} {e : Epoch} {m : Machine}

/-! ### Strides -/

/-- A ripe epoch has begun, so it is live while it is undecided. -/
theorem Kept.overdue (h : t.Kept services) (held : t.replica.window.Holds (.consensus m))
    (undecided : t.replica.window.isUndecided m.epoch = true)
    (ripe : (t.replica.host services).Ripe m (t.replica.chain, t.world)) :
    t.Overdue services m.epoch := by
  refine ⟨isLive_of_begun undecided ?_, m, held, rfl, ripe⟩
  obtain ⟨_, ⟨⟩, hidle | hbegun⟩ := h.held _ held
  · rw [ripe.phase] at hidle
    cases hidle
  · exact hbegun

/-- What another epoch leaves as linked as it was is overdue only if it was before. -/
theorem Kept.overdue_other (h : t.Kept services) {world : Chain × τ}
    (held : t.replica.window.Holds (.consensus m))
    (undecided : t.replica.window.isUndecided m.epoch = true)
    (linked : ∀ b, (t.replica.host services).extendsChain b world =
      (t.replica.host services).extendsChain b (t.replica.chain, t.world))
    (ripe : (t.replica.host services).Ripe m world) : t.Overdue services m.epoch := by
  obtain ⟨key, hdecision, proposal, hfound, hlinked⟩ := ripe.linked
  exact h.overdue held undecided
    ⟨ripe.phase, key, hdecision, proposal, hfound, (linked _).symm.trans hlinked⟩

/-- A call on an epoch does not make it overdue, nor another one whose blocks stay as linked as they
were. -/
theorem Kept.overdue_acted (h : t.Kept services) {d : Epoch} {s' : Step (Chain × τ)} {w : Window}
    (serves : t.replica.window.Serves d (.consensus m))
    (prompt : (t.replica.host services).Prompt ⟨t.context, m⟩ s')
    (epoch : s'.machine.epoch = m.epoch)
    (kept : t.replica.window.put (.consensus s'.machine) = .ok w)
    (linked : d ≠ e → ∀ b, (t.replica.host services).extendsChain b s'.world =
      (t.replica.host services).extendsChain b (t.replica.chain, t.world))
    (overdue : (t.absorb services w s'.toContext).Overdue services e) :
    t.Overdue services e := by
  obtain ⟨hlive, x, hx, rfl, hripe⟩ := overdue
  obtain rfl : m.epoch = d := serves.epoch
  have hundecided : t.replica.window.isUndecided x.epoch = true :=
    (Window.isUndecided_put kept).symm.trans (Bool.and_eq_true_iff.mp hlive).1
  rcases Window.holds_put h.delivering.placed kept hx with hself | ⟨hheld, hother⟩
  · cases hself
    have hbefore := prompt hripe
    rw [epoch] at hundecided ⊢
    refine h.overdue (serves.source.resolve_right fun hcreated => ?_) hundecided hbefore
    -- a new epoch is not ripe
    have hphase := (h.created hcreated).1
    rw [hbefore.phase] at hphase
    cases hphase
  · refine h.overdue_other hheld hundecided (linked fun hsame => hother ?_) hripe
    exact hsame.symm.trans epoch.symm

/-- A decision on another epoch does not make one overdue. -/
theorem Kept.overdue_deliver (h : t.Kept services) {d : Epoch} {b : Block} {rest : List Outcome}
    {w : Window} {chain : Chain} {committed : List Block}
    (new : t.replica.window.finishEpoch d = .ok (w, true))
    (done : t.replica.chain.commit b = .ok (chain, committed))
    (overdue : ({ t with outcomes := rest }.deliver d w chain committed).Overdue services e) :
    t.Overdue services e := by
  obtain ⟨hlive, x, hx, rfl, hphase, key, hdecision, proposal, hfound, hlinked⟩ := overdue
  obtain ⟨hlt, hundecided⟩ :=
    Window.later_of_finishEpoch new (Bool.and_eq_true_iff.mp hlive).1
  refine h.overdue ((Window.holds_later new (x := .consensus x) hlt).mp hx) hundecided
    ⟨hphase, key, hdecision, proposal, hfound, ?_⟩
  exact Chain.extendsChain_of_commit h.delivering.levelled done hlinked

/-- **No stride makes an epoch overdue**, except that another epoch brings a block. -/
theorem Stride.overdue (stride : Stride services (fun _ => True) t t') (h : t.Kept services)
    (overdue : t'.Overdue services e) : t.Overdue services e ∨ Brings services e t t' := by
  have hsteady := t.replica.steady_host services
  have hplaced := h.delivering.placed
  cases stride with
  | @receive d inst inst' x c w quiet claimed admitted done kept =>
    have hserves := Window.serves_of_claim hplaced claimed
    obtain ⟨m, rfl, -, hsound⟩ := h.source hserves.source
    obtain ⟨s', hs', rfl, rfl⟩ := Instance.ofStep_eq_ok done
    have hepoch := (Host.receive_sane hsound (fun _ _ => trivial) hs').epoch
    have hprompt := Host.prompt_receive hsteady hs'
    by_cases hother : d ≠ e
    · rcases Host.receive_shown hsteady hsound hs' with hadds | hlinked
      · exact .inr (.receive hother claimed done kept hadds)
      · exact .inl (h.overdue_acted hserves hprompt hepoch kept (fun _ => hlinked) overdue)
    · exact .inl (h.overdue_acted hserves hprompt hepoch kept (fun h => absurd h hother) overdue)
  | expire quiet found done kept =>
    have hserves := Window.serves_of_instance hplaced found
    obtain ⟨m, rfl, -, hsound⟩ := h.source hserves.source
    obtain ⟨s', hs', rfl, rfl⟩ := Instance.ofStep_eq_ok done
    have hepoch := (Host.expire_sane hsound hs').epoch
    exact .inl (h.overdue_acted hserves (Host.prompt_expire hsteady hs') hepoch kept
      (fun _ => Host.linked_expire hsteady hs') overdue)
  | @start carried rest d inst inst' c w due room next limit found done kept =>
    obtain ⟨m, s', rfl, rfl, rfl, hopening, -⟩ := (h.settled due).start next limit found done kept
    obtain ⟨hlive, x, hx, rfl, hripe⟩ := overdue
    have hundecided : t.replica.window.isUndecided x.epoch = true :=
      (Window.isUndecided_put kept).symm.trans (Bool.and_eq_true_iff.mp hlive).1
    have hplaced' : { t.replica.window with lastEpoch := some d : Window }.Placed := hplaced
    rcases Window.holds_put hplaced' kept hx with hself | ⟨hheld, hother⟩
    · cases hself
      exact absurd hripe (Host.not_ripe_start hsteady hopening.idle hopening.done)
    · have hepoch : s'.machine.epoch = d := hopening.leaves.epoch.trans hopening.epoch
      have hother : d ≠ x.epoch := fun hsame => hother (hsame.symm.trans hepoch.symm)
      rcases Host.start_shown hsteady hopening.sound hopening.idle hopening.done with
        hadds | hlinked
      · exact .inr (.start hother due next done kept hadds)
      · exact .inl (h.overdue_other hheld hundecided hlinked hripe)
  | decide outcome new done => exact .inl (h.overdue_deliver new done overdue)
  | late | pass | defer | cutOff =>
    -- the store and the instances stay as they are
    obtain ⟨hlive, x, hx, rfl, hripe⟩ := overdue
    exact .inl (h.overdue hx (Bool.and_eq_true_iff.mp hlive).1 hripe)

/-! ### Runs -/

/-- **Decisions that are overdue.**  If a live epoch has decided, holds the proposal of the block
and has it linked, but has not handed it on after a call, then that is since another epoch added a
block to the store. -/
theorem run_overdue {id : ProcessId} {count : Nat} {config : Config} {r : Replica} {world : τ}
    {inputs : List Input} (created : Replica.create id count config = .ok r)
    (sync : config.model = .sync) (ran : (Turn.start r world).run services inputs = .ok t)
    (overdue : t.Overdue services e) :
    ∃ u u', Strides services (fun _ => True) (Turn.start r world) u ∧ ¬ u.Overdue services e ∧
      Brings services e u u' ∧ u'.Overdue services e ∧
      Strides services (fun _ => True) u' t := by
  have hstart : (Turn.start r world).Rests services := rests_start created sync world
  have hstrides := (hstart.run ran).2
  clear ran
  -- by induction on the strides: the last one that made it overdue is the one
  induction hstrides with
  | refl =>
    obtain ⟨-, m, hm, -⟩ := overdue
    rw [show (Turn.start r world).replica.window = .ofConfig config id from
      (Replica.fresh_create created).window] at hm
    exact absurd hm (Window.not_holds_ofConfig config id)
  | @tail u t hpath stride ih =>
    by_cases hbefore : u.Overdue services e
    · obtain ⟨v, v', hv, hnot, hbrings, hdue, hrest⟩ := ih hbefore
      exact ⟨v, v', hv, hnot, hbrings, hdue, hrest.tail stride⟩
    · have hkept := (Strides.attended hpath hstart.attended).kept
      refine ⟨u, t, hpath, hbefore, ?_, overdue, .refl⟩
      exact (stride.overdue hkept overdue).resolve_left hbefore

/-! ### A first block that comes last -/

def lateConfig : Config :=
  { Config.default with maxActiveEpochs := 3, maxEpochToStart := 2, blockchainSize := 2 }

/-- The last process of three. -/
def lateReplica : Replica where
  id := 2
  count := 3
  config := lateConfig
  chain := .empty 2 Nat.two_pos
  window := .ofConfig lateConfig 2
  deferred := none

theorem create_late : Replica.create 2 3 lateConfig = .ok lateReplica := rfl

def lowerBlock : Block := .genesis [0]

def upperBlock : Block := .ofFields 1 (some lowerBlock.id) [1] (by simp)

/-- The votes of the other two processes on a block. -/
def bothVotes (epoch : Epoch) (b : Block) : List Input :=
  [.message (.vote ⟨epoch, b.height, b.id, 0, ⟨.fill 64 1⟩, 0, none⟩),
    .message (.vote ⟨epoch, b.height, b.id, 1, ⟨.fill 64 2⟩, 1, none⟩)]

def lowerQuorum : Certificate :=
  ((Certificate.block 0 0 lowerBlock.id).add 0 ⟨.fill 64 1⟩).add 1 ⟨.fill 64 2⟩

/-- Two epochs decide on two blocks; then the proposals come, that of the lower block last. -/
def lateInputs : List Input :=
  .bootstrap :: (bothVotes 0 lowerBlock ++ bothVotes 1 upperBlock ++
    [.timeout ⟨0, .equivocation, 400⟩, .timeout ⟨1, .equivocation, 400⟩,
      .message (.propose ⟨1, upperBlock, some lowerQuorum, 1, 1, ⟨.fill 64 2⟩⟩),
      .message (.propose ⟨0, lowerBlock, none, 0, 0, ⟨.fill 64 1⟩⟩)])

/-- The upper block is linked once the lower one is there, but it is not handed on. -/
theorem run_late : ∃ t, (Turn.start lateReplica ()).run soloServices lateInputs = .ok t ∧
    t.replica.chain.anchor = some lowerBlock ∧ t.Overdue soloServices 1 := by
  obtain ⟨t, hran, hstate⟩ : ∃ t, (Turn.start lateReplica ()).run soloServices lateInputs = .ok t ∧
      (t.replica.chain.anchor, t.replica.window.isLive 1,
        (t.replica.window.instance? 1).toOption.join.map fun x => x.machine?.any fun m =>
          (t.replica.host soloServices).Ripe m (t.replica.chain, t.world)) =
        (some lowerBlock, true, some true) :=
    exists_of_toOption (by decide +kernel)
  simp only [Prod.mk.injEq] at hstate
  obtain ⟨hanchor, hlive, hfound⟩ := hstate
  obtain ⟨inst, hheld, hepoch, hripe⟩ := Window.exists_of_instance hfound
  cases inst with
  | consensus m => exact ⟨t, hran, hanchor, hlive, m, hheld, hepoch, of_decide_eq_true hripe⟩
  | probe b => cases hripe

/-- So another epoch brought the lower block. -/
theorem run_overdue_late :
    ∃ t, (Turn.start lateReplica ()).run soloServices lateInputs = .ok t ∧
      ∃ u u', ¬ u.Overdue soloServices 1 ∧ Brings soloServices 1 u u' ∧
        u'.Overdue soloServices 1 ∧ Strides soloServices (fun _ => True) u' t := by
  obtain ⟨t, hran, -, hoverdue⟩ := run_late
  obtain ⟨u, u', -, hnot, hbrings, hdue, hrest⟩ := run_overdue create_late rfl hran hoverdue
  exact ⟨t, hran, u, u', hnot, hbrings, hdue, hrest⟩

/-- A decision whose block is linked to the anchor may wait all the same. -/
theorem waits_although_linked : Replica.create 2 3 lateConfig = .ok lateReplica ∧
    ∃ t, (Turn.start lateReplica ()).run soloServices lateInputs = .ok t ∧
      t.replica.chain.anchor = some lowerBlock ∧
      ∃ e m key proposal, t.replica.window.isLive e = true ∧
        t.replica.window.instance? e = .ok (some (.consensus m)) ∧ m.phase = .commit ∧
        m.decision = some key ∧ m.proposals.find? key.2 = some proposal ∧
        t.replica.chain.extendsChain proposal.block = true := by
  obtain ⟨t, hran, hanchor, hlive, m, hheld, hepoch, hphase, key, hkey, proposal, hfound,
    hlinked⟩ := run_late
  have hrests : t.Rests soloServices := ((rests_start create_late rfl ()).run hran).1
  have hplaced := hrests.attended.kept.delivering.placed
  exact ⟨create_late, t, hran, hanchor, 1, m, key, proposal, hlive,
    hepoch ▸ Window.instance_of_holds hplaced hheld, hphase, hkey, hfound, hlinked⟩

end Turn

end EpochConsensus
