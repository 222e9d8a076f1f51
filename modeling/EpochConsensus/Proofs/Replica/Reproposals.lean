import EpochConsensus.Proofs.Epoch.Acceptance
import EpochConsensus.Proofs.Replica.Discipline
import EpochConsensus.Proofs.Replica.Overdue
import EpochConsensus.Proofs.Replica.Repeats

/-! # Blocks that are proposed again

An honest replica that waits for the proposal of an epoch votes for the first valid one if that
respects the lock and its block is new to the store, and linked there.  But all epochs share the
store, and it takes a block once.  When an epoch has left its block there undecided, the same block
gets no vote in a later epoch (`Turn.run_accepts`).
-/
namespace EpochConsensus

namespace Turn

variable {τ : Type} {services : Services τ} {heard : Endorsement → Prop} {t t' u : Turn τ}
  {m : Machine} {x : Message}

/-- What has been done stays done. -/
theorem Stride.actions (stride : Stride services heard t t') :
    ∃ later, t'.actions.toList = t.actions.toList ++ later := by
  cases stride with
  | receive | expire | start | decide => exact ⟨_, Array.toList_appendList⟩
  | late | pass | defer | cutOff => exact ⟨[], (List.append_nil _).symm⟩

theorem Strides.actions (strides : Strides services heard t t') :
    ∃ later, t'.actions.toList = t.actions.toList ++ later := by
  induction strides with
  | refl => exact ⟨[], (List.append_nil _).symm⟩
  | tail _ stride ih =>
    obtain ⟨before, hbefore⟩ := ih
    obtain ⟨later, hlater⟩ := stride.actions
    exact ⟨before ++ later, by rw [hlater, hbefore, List.append_assoc]⟩

/-- A message that its epoch can receive is handled up to what is left to settle. -/
theorem react_of_received (placed : t.replica.window.Placed)
    (held : t.replica.window.Holds (.consensus m)) (epoch : x.epoch? = some m.epoch)
    {s : Step (Chain × τ)}
    (received : (t.replica.host services).receive x ⟨t.context, m⟩ = .ok s)
    (same : s.machine.epoch = m.epoch) :
    ∃ w, t.replica.window.put (.consensus s.machine) = .ok w ∧
      t.react services (.message x) = .ok (t.absorb services w s.toContext) := by
  have hclaimed : t.replica.window.claim? m.epoch = .ok (some (.consensus m)) :=
    Window.claim_of_holds placed held
  rw [react_message epoch, hclaimed]
  exact call_of_received placed held received same

/-- The epochs of an honest replica that have begun and not ended are honest. -/
theorem Orderly.isHonest {p : Host (Chain × τ)} (h : t.Orderly p heard services)
    (held : t.replica.window.Holds (.consensus m))
    (active : m.phase ≠ .inactive ∧ m.phase ≠ .finished) : m.policy.isHonest = true := by
  obtain ⟨_, ⟨⟩, hstanding⟩ := h.standing _ held
  cases hstanding with
  | waiting h => exact absurd h.inactive active.1
  | running started h => exact h.honest
  | finished h => exact absurd h active.2

/-! ### A stored block -/

/-- A call has requested timeouts again for the epoch `m`, and nothing else has come of it. -/
structure Ignores (m : Machine) (t t' : Turn τ) : Prop where
  replica : ∃ timers w, t.replica.window.put (.consensus { m with timers }) = .ok w ∧
    t'.replica = { t.replica with window := w }
  actions : ∃ asked, t'.actions.toList = t.actions.toList ++ asked ∧
    ∀ a ∈ asked, ∃ timeout accepted, a = .request timeout accepted

/-- **A block that is stored is not taken again**, and nothing comes of its proposal. -/
theorem Rests.ignores (h : t.Rests services) (held : t.replica.window.Holds (.consensus m))
    (active : m.phase ≠ .inactive ∧ m.phase ≠ .finished) (loud : m.policy.isSilent = false)
    {proposal : Proposal} (current : proposal.epoch = m.epoch)
    (unknown : m.proposals.contains proposal.block.id = false)
    (valid : (t.replica.host services).isValid proposal = .ok true)
    (stored : t.replica.chain.holds proposal.block.key = true) :
    ∃ t', t.take services (.message (.propose proposal)) = .ok t' ∧ t.Ignores m t' := by
  have hrefuses : ∀ w, (t.replica.host services).Requested (t.replica.chain, t.world) w →
      (t.replica.host services).addBlock proposal.block w = .ok (false, w) := by
    rintro ⟨chain, world⟩ hrequested
    obtain rfl : chain = t.replica.chain := t.replica.chain_of_requested services hrequested
    simp [Replica.host, Chain.add, stored, bind, Except.bind, pure, Except.pure]
  obtain ⟨c, timers, received, hworld, heffects⟩ :=
    Host.receive_refused active loud unknown valid hrefuses
  obtain ⟨w, kept, reacted⟩ :=
    react_of_received h.attended.kept.delivering.placed held (by rw [← current]; rfl) received rfl
  have houtcomes : (t.absorb services w c).outcomes = [] := by
    rw [outcomes_absorb, h.quiet, List.nil_append]
    refine List.filterMap_eq_nil_iff.mpr fun e he => ?_
    rcases heffects e he with hrequest | rfl
    · cases e with
      | request => rfl
      | _ => cases hrequest
    · rfl
  refine ⟨t.absorb services w c, ?_, ⟨timers, w, kept, ?_⟩, _, Array.toList_appendList, ?_⟩
  · rw [take_eq h.quiet, reacted]
    exact settle_of_quiet houtcomes
  · have hchain : c.world.1 = t.replica.chain := t.replica.chain_of_requested services hworld
    simp [absorb, hchain]
  · intro a ha
    obtain ⟨e, he, haction⟩ := List.mem_filterMap.mp ha
    rcases heffects e he with hrequest | rfl
    · cases e with
      | request timeout accepted =>
        simp only [Replica.action?] at haction
        split at haction
        · cases haction
          exact ⟨timeout, accepted, rfl⟩
        · cases haction
      | _ => cases hrequest
    · cases haction

/-! ### A new block -/

/-- A call has put the proposal on record in its epoch, which is `m` then, and has sent the vote of
this process to all. -/
structure VotesFor (services : Services τ) (proposal : Proposal) (m : Machine) (t u : Turn τ) :
    Prop where
  held : u.replica.window.Holds (.consensus m)
  epoch : m.epoch = proposal.epoch
  recorded : m.proposals.toList = [proposal]
  voted : m.hasVoted = true
  sent : ∃ sent, u.actions.toList = t.actions.toList ++ sent ∧
    Action.send ⟨t.replica.id, .all, t.replica.sign services
      (.vote ((t.replica.host services).ownVote proposal.epoch proposal))⟩ ∈ sent

/-- **A block that is new to the store gets a vote**, whatever is left to settle then. -/
theorem Rests.votes (h : t.Rests services) (held : t.replica.window.Holds (.consensus m))
    (honest : m.policy.isHonest = true) (expects : (t.replica.host services).Expects m)
    {proposal : Proposal} (current : proposal.epoch = m.epoch)
    (valid : (t.replica.host services).isValid proposal = .ok true)
    (ranks : Certificate.ranksAtLeast proposal.certificate m.initialLocked = true) {chain : Chain}
    (added : t.replica.chain.add proposal.block = .ok (chain, true))
    (linked : chain.extendsChain proposal.block = true) :
    ∃ u m', t.react services (.message (.propose proposal)) = .ok u ∧
      t.VotesFor services proposal m' u ∧ u.replica.window.Recalls m' ∧ u.AtRest ∧
      ((m.counted proposal.sender proposal.vote).hasQuorum t.replica.count = false →
        u.outcomes = []) := by
  have hadmits : ∀ w, (t.replica.host services).Requested (t.replica.chain, t.world) w →
      ∃ w', (t.replica.host services).addBlock proposal.block w = .ok (true, w') ∧
        (t.replica.host services).extendsChain proposal.block w' = true := by
    rintro ⟨before, world⟩ hrequested
    obtain rfl : before = t.replica.chain := t.replica.chain_of_requested services hrequested
    exact ⟨(chain, world), by simp [Replica.host, added, bind, Except.bind, pure, Except.pure],
      linked⟩
  obtain ⟨s, received, haccepted⟩ := expects.receive honest current valid ranks hadmits
  have hkept := h.attended.kept
  have hplaced := hkept.delivering.placed
  obtain ⟨w, kept, reacted⟩ :=
    react_of_received hplaced held (by rw [← current]; rfl) received haccepted.epoch
  have hbegun : t.replica.window.Begun s.machine.epoch := by
    obtain ⟨_, ⟨⟩, hphase⟩ := hkept.held _ held
    rw [haccepted.epoch]
    exact hphase.resolve_left (by simp [expects.phase])
  refine ⟨t.absorb services w s.toContext, s.machine, reacted, ⟨Window.holds_put_self kept,
    haccepted.epoch.trans current.symm, haccepted.recorded, haccepted.voted,
    _, Array.toList_appendList, ?_⟩, .of_put hplaced hbegun kept, ?_, fun short => ?_⟩
  · exact List.mem_filterMap.mpr ⟨_, Array.mem_toList_iff.mpr (current ▸ haccepted.vote), rfl⟩
  · obtain ⟨_, -, rfl⟩ := Window.put_eq kept
    exact h.atRest
  · have hleft := Host.receive_leaves (hkept.delivering.sound _ held) (fun _ _ => trivial) received
    rw [outcomes_absorb, h.quiet, List.nil_append]
    exact (hleft.leaves.opened (haccepted.opened short)).2

/-! ### The same block in two epochs -/

/-- The same first block, proposed in any epoch. -/
def offer (epoch : Epoch) (proposer : ProcessId) : Proposal :=
  ⟨epoch, soloBlock, none, proposer, proposer, ⟨.fill 64 1⟩⟩

/-- The first epoch is blamed for its silence, and ends soon after its proposal has come late. -/
def silentInputs : List Input :=
  [.bootstrap, .timeout ⟨0, .propose, 1200⟩, .message (.silence ⟨0, 1, ⟨.fill 64 2⟩⟩),
    .message (.silence ⟨0, 2, ⟨.fill 64 1⟩⟩), .message (.propose (offer 0 0)),
    .timeout ⟨0, .quitEpoch, 400⟩]

/-- Whether an instance waits for its first proposal and vote, without a lock. -/
def awaitsFirst (inst : Instance) : Bool :=
  inst.machine?.any fun m => m.phase = .ready && !m.hasVoted && m.proposals = .empty &&
    m.votes = .empty && m.initialLocked = none

theorem exists_expecting {e : Epoch}
    (found : (t.replica.window.instance? e).toOption.join.map awaitsFirst = some true)
    (turn : rotation t.replica.count e ≠ .ok t.replica.id) :
    ∃ m, t.replica.window.Holds (.consensus m) ∧ m.epoch = e ∧
      (t.replica.host services).Expects m ∧ m.votes = .empty ∧ m.initialLocked = none := by
  obtain ⟨inst, hheld, hepoch, hwaits⟩ := Window.exists_of_instance found
  cases inst with
  | consensus m =>
    simp only [awaitsFirst, Instance.machine?, Option.any_some, Bool.and_eq_true, decide_eq_true_eq,
      Bool.not_eq_true'] at hwaits
    obtain ⟨⟨⟨⟨phase, fresh⟩, unproposed⟩, votes⟩, unlocked⟩ := hwaits
    exact ⟨m, hheld, hepoch, ⟨phase, by rw [show m.epoch = e from hepoch]; exact turn, fresh,
      unproposed⟩, votes, unlocked⟩
  | probe b => cases hwaits

/-- The second epoch waits for a proposal, and the block is stored. -/
theorem run_silent : ∃ t m, (Turn.start lateReplica ()).run soloServices silentInputs = .ok t ∧
    t.replica.window.Holds (.consensus m) ∧ m.epoch = 1 ∧
    (t.replica.host soloServices).Expects m ∧ m.initialLocked = none ∧
    (t.replica.host soloServices).isValid (offer 1 1) = .ok true ∧
    (t.replica.chain.find? soloBlock.key).isSome = true ∧
    t.replica.chain.extendsChain soloBlock = true := by
  obtain ⟨t, hran, hstate⟩ : ∃ t, (Turn.start lateReplica ()).run soloServices silentInputs =
      .ok t ∧ ((t.replica.window.instance? 1).toOption.join.map awaitsFirst,
        t.replica.count, t.replica.id, (t.replica.chain.find? soloBlock.key).isSome,
        t.replica.chain.extendsChain soloBlock) = (some true, 3, 2, true, true) :=
    exists_of_toOption (by decide +kernel)
  simp only [Prod.mk.injEq] at hstate
  obtain ⟨hfound, hcount, hid, hstored, hlinked⟩ := hstate
  obtain ⟨m, hheld, hepoch, hexpects, -, hunlocked⟩ :=
    exists_expecting hfound (by rw [hcount, hid]; decide)
  refine ⟨t, m, hran, hheld, hepoch, hexpects, hunlocked, ?_, hstored, hlinked⟩
  simp only [Host.isValid, Replica.host, hcount]
  rfl

/-! ### Runs -/

/-- **The first proposal of an epoch.**  Let an honest replica wait for the proposal of an epoch,
which is up to another process, and let a valid one come that respects the lock of the epoch.  If
the store takes its block, and the block is linked then, the proposal goes on record and the replica
votes for it; unless its proposer's vote completes a majority, that is all.  If the store holds the
block already, nothing comes of the proposal. -/
theorem run_accepts {id : ProcessId} {count : Nat} {config : Config} {r : Replica} {world : τ}
    {inputs : List Input} (created : Replica.create id count config = .ok r)
    (honest : config.isByzantine id = false) (sync : config.model = .sync)
    (ran : (Turn.start r world).run services inputs = .ok t)
    (held : t.replica.window.Holds (.consensus m))
    (expects : (t.replica.host services).Expects m) {proposal : Proposal}
    (current : proposal.epoch = m.epoch)
    (valid : (t.replica.host services).isValid proposal = .ok true)
    (ranks : Certificate.ranksAtLeast proposal.certificate m.initialLocked = true) :
    (∀ chain, t.replica.chain.add proposal.block = .ok (chain, true) →
      chain.extendsChain proposal.block = true →
      ∃ u m', t.react services (.message (.propose proposal)) = .ok u ∧
        t.take services (.message (.propose proposal)) = u.settle services ∧
        t.VotesFor services proposal m' u ∧
        ((m.counted proposal.sender proposal.vote).hasQuorum t.replica.count = false →
          t.take services (.message (.propose proposal)) = .ok u) ∧
        ∀ t', t.take services (.message (.propose proposal)) = .ok t' →
          t'.replica.window.Recalls m' ∧
          ∃ later, t'.actions.toList = u.actions.toList ++ later) ∧
    (t.replica.chain.holds proposal.block.key = true →
      ∃ t', t.take services (.message (.propose proposal)) = .ok t' ∧ t.Ignores m t') := by
  have hrests : t.Rests services := ((rests_start created sync world).run ran).1
  have hhonest : m.policy.isHonest = true := by
    have horderly : t.Orderly (r.host services) (fun _ => True) services :=
      run_orderly created sync honest (fun i _ => i.carriesOnly_true) ran
    exact horderly.isHonest held (by simp [expects.phase])
  constructor
  · intro chain added linked
    obtain ⟨u, m', reacted, hvotes, hrecalls, hrest, hquiet⟩ :=
      hrests.votes held hhonest expects current valid ranks added linked
    have htake : t.take services (.message (.propose proposal)) = u.settle services := by
      rw [take_eq hrests.quiet, reacted]
      rfl
    refine ⟨u, m', reacted, htake, hvotes, fun short => ?_, fun t' taken => ?_⟩
    · rw [htake, settle_of_quiet (hquiet short)]
    · rw [htake] at taken
      exact ⟨recalls_settleUpTo hrecalls taken,
        (settleUpTo_strides (fun _ => True) hrest taken).1.actions⟩
  · intro stored
    exact hrests.ignores held (by simp [expects.phase]) (Policy.isSilent_eq_false hhonest) current
      (by rw [expects.unproposed]; rfl) valid stored

/-- The late proposal of a new block gets a vote; the same block gets none in the second epoch. -/
theorem run_accepts_silent :
    (∃ t u m, (Turn.start lateReplica ()).run soloServices [.bootstrap] = .ok t ∧
      t.take soloServices (.message (.propose (offer 0 0))) = .ok u ∧
      t.VotesFor soloServices (offer 0 0) m u) ∧
    ∃ t t' m, (Turn.start lateReplica ()).run soloServices silentInputs = .ok t ∧
      t.replica.window.Holds (.consensus m) ∧ m.epoch = 1 ∧
      t.take soloServices (.message (.propose (offer 1 1))) = .ok t' ∧ t.Ignores m t' := by
  constructor
  · obtain ⟨t, hran, hstate⟩ : ∃ t, (Turn.start lateReplica ()).run soloServices [.bootstrap] =
        .ok t ∧ ((t.replica.window.instance? 0).toOption.join.map awaitsFirst, t.replica.count,
          t.replica.id, (t.replica.chain.add soloBlock).toOption.map fun answer =>
            (answer.2, answer.1.extendsChain soloBlock)) = (some true, 3, 2, some (true, true)) :=
      exists_of_toOption (by decide +kernel)
    simp only [Prod.mk.injEq] at hstate
    obtain ⟨hfound, hcount, hid, hadd⟩ := hstate
    obtain ⟨m, hheld, hepoch, hexpects, hvotes, hunlocked⟩ :=
      exists_expecting hfound (by rw [hcount, hid]; decide)
    obtain ⟨⟨chain, added⟩, hadd, hanswer⟩ := exists_of_toOption hadd
    obtain ⟨rfl, hlinked⟩ := Prod.mk.inj hanswer
    have hvalid : (t.replica.host soloServices).isValid (offer 0 0) = .ok true := by
      simp only [Host.isValid, Replica.host, hcount]
      rfl
    have hshort : (m.counted 0 (offer 0 0).vote).hasQuorum t.replica.count = false := by
      unfold Machine.counted
      rw [hvotes, hepoch, hcount]
      decide
    obtain ⟨u, m', -, -, hvotes, taken, -⟩ := (run_accepts create_late rfl rfl hran hheld hexpects
      hepoch.symm hvalid (by rw [hunlocked]; rfl)).1 chain hadd hlinked
    exact ⟨t, u, m', hran, taken hshort, hvotes⟩
  · obtain ⟨t, m, hran, hheld, hepoch, hexpects, hunlocked, hvalid, hstored, -⟩ := run_silent
    have hholds : t.replica.chain.holds (offer 1 1).block.key = true := by
      unfold Chain.holds
      rw [show (offer 1 1).block.key = soloBlock.key from rfl, hstored, Bool.or_true]
    obtain ⟨t', taken, hignores⟩ := (run_accepts create_late rfl rfl hran hheld hexpects
      hepoch.symm hvalid (by rw [hunlocked]; rfl)).2 hholds
    exact ⟨t, t', m, hran, hheld, hepoch, taken, hignores⟩

/-- So a stored block that is linked to the anchor may get no vote in a later epoch, although its
proposal is valid and respects the lock. -/
theorem ignores_stored : Replica.create 2 3 lateConfig = .ok lateReplica ∧
    lateConfig.isByzantine 2 = false ∧ lateConfig.model = .sync ∧
    ∃ t t' m, (Turn.start lateReplica ()).run soloServices silentInputs = .ok t ∧
      t.replica.window.Holds (.consensus m) ∧ (t.replica.host soloServices).Expects m ∧
      (offer 1 1).epoch = m.epoch ∧
      (t.replica.host soloServices).isValid (offer 1 1) = .ok true ∧
      Certificate.ranksAtLeast (offer 1 1).certificate m.initialLocked = true ∧
      (t.replica.chain.find? (offer 1 1).block.key).isSome = true ∧
      t.replica.chain.extendsChain (offer 1 1).block = true ∧
      t.take soloServices (.message (.propose (offer 1 1))) = .ok t' ∧
      t'.replica = t.replica ∧ t'.actions = t.actions := by
  obtain ⟨t, m, hran, hheld, hepoch, hexpects, hunlocked, hvalid, hstored, hlinked⟩ := run_silent
  obtain ⟨⟨u, t'⟩, hcalls, hsame⟩ : ∃ u, ((Turn.start lateReplica ()).run soloServices
      silentInputs >>= fun t => do
        return (t, ← t.take soloServices (.message (.propose (offer 1 1))))) = .ok u ∧
      decide (u.2.replica = u.1.replica ∧ u.2.actions = u.1.actions) = true :=
    exists_of_toOption (by decide +kernel)
  rw [hran] at hcalls
  obtain ⟨v, taken, hcalls⟩ : ∃ v, t.take soloServices (.message (.propose (offer 1 1))) = .ok v ∧
      (.ok (t, v) : Except Fault (Turn Unit × Turn Unit)) = .ok (u, t') := bind_eq_ok.mp hcalls
  cases hcalls
  obtain ⟨hreplica, hactions⟩ := of_decide_eq_true hsame
  exact ⟨create_late, rfl, rfl, t, t', m, hran, hheld, hexpects, hepoch.symm, hvalid,
    by rw [hunlocked]; rfl, hstored, hlinked, taken, hreplica, hactions⟩

end Turn

end EpochConsensus
