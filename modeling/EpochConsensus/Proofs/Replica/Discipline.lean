import EpochConsensus.Proofs.Epoch.Justification
import EpochConsensus.Proofs.Replica.Orderly

/-! # What an honest replica signs

Whatever messages reach it, an honest replica signs at most one block statement in each epoch, and
none in an epoch that is decided.  It votes for the only proposal that it has recorded, if that
comes from the proposer, is valid, ranks at least as high as the lock of the epoch and extends the
committed chain (`run_signing`).
-/
namespace EpochConsensus

/-- Asking for timeouts leaves the store alone. -/
theorem Replica.chain_of_requested {τ : Type} (services : Services τ) (r : Replica)
    {w w' : Chain × τ} (h : (r.host services).Requested w w') : w'.1 = w.1 := by
  induction h with
  | refl => rfl
  | tail _ asked ih =>
    obtain ⟨t, rfl⟩ := asked
    rw [← ih]
    simp only [host]
    split <;> rfl

namespace History

variable {τ : Type} {services : Services τ} {r : Replica} {heard : Endorsement → Prop}
  {h : History τ} {decided : Option Epoch} {x : Moment (Chain × τ)}

/-- **A vote** is for the only recorded proposal, which is a valid one of the epoch's proposer,
ranks at least as high as the lock of the epoch, and descends through stored blocks to the
anchor. -/
theorem Accounted.vote (hx : Accounted (r.host services) heard h decided x) {v : Vote}
    (hv : x.effect = .broadcast (.vote v)) :
    ∃ m proposal start, x.machine = some m ∧ v = (r.host services).ownVote m.epoch proposal ∧
      m.proposals.single? = some proposal ∧
      rotation r.count m.epoch = .ok proposal.sender ∧
      (r.host services).isValid proposal = .ok true ∧
      Started h m.epoch start ∧
      Certificate.ranksAtLeast proposal.certificate start.locked = true ∧
      ∃ bs, x.world.1.Descends proposal.block.height.toNat proposal.block.id bs := by
  cases hm : x.machine with
  | none =>
    have hquestion := hx.question hm
    rw [hv] at hquestion
    exact hquestion.elim
  | some m =>
    obtain ⟨hact, -, start, started, hfaithful⟩ := hx.act m hm
    rw [hv] at hact
    generalize hmessage : Message.vote v = message at hact
    cases hact with
    | @vote proposal votable =>
      cases hmessage
      obtain ⟨-, -, single, ranks, w, hextends, hrequested⟩ := votable hfaithful.honest
      obtain ⟨hepoch, hvalid, -⟩ :=
        hfaithful.sound.proposals _ (m.proposals.mem_single? single)
      refine ⟨m, proposal, start, rfl, rfl, single, ?_, hvalid, started, ?_, ?_⟩
      · rw [← hepoch]
        exact (Host.isValid_eq_true hvalid).1
      · rw [← hfaithful.initial]
        exact ranks
      · rw [r.chain_of_requested services hrequested]
        refine Chain.descends_of_extendsChain ?_ hextends
        rw [← r.chain_of_requested services hrequested]
        exact hx.levelled
    | _ => cases hmessage

end History

namespace Turn

variable {τ : Type} {services : Services τ} {t t' : Turn τ}

/-- An honest replica is in order after any calls. -/
theorem run_orderly {heard : Endorsement → Prop} {id : ProcessId} {count : Nat} {config : Config}
    {r : Replica} {world : τ} {inputs : List Input}
    (created : Replica.create id count config = .ok r) (sync : config.model = .sync)
    (honest : config.isByzantine id = false) (admitted : ∀ i ∈ inputs, i.CarriesOnly heard)
    (ran : (Turn.start r world).run services inputs = .ok t) :
    t.Orderly (r.host services) heard services := by
  have hfresh := Replica.fresh_create created
  exact Moves.orderly (run_moves (atRest_start hfresh.deferred world) admitted ran).1
    (orderly_start hfresh sync honest world)

/-- **Honest signing.**  At every point `t'` of a run, with any messages and in the middle of a call
as well, an honest replica has signed at most one block statement of each epoch, none in an epoch
that was decided then, and every vote of its own was for the only proposal recorded in the epoch
then: a valid one of the proposer that ranks at least as high as the lock the epoch was started
with, and whose block descends through stored blocks to the anchor, or to height zero before any
commit. -/
theorem run_signing {id : ProcessId} {count : Nat} {config : Config} {r : Replica} {world : τ}
    {inputs : List Input} (created : Replica.create id count config = .ok r)
    (sync : config.model = .sync) (honest : config.isByzantine id = false)
    (ran : (Turn.start r world).run services inputs = .ok t)
    (point : Moves services (fun _ => True) t t') :
    (∀ e, ((History.blockStatements id t'.records).filter (·.epoch = e)).length ≤ 1) ∧
      (∀ decided x s, Record.acted decided x ∈ t'.records → x.effect.blockSigned? id = some s →
        Window.upTo decided ≤ s.epoch.toNat) ∧
      ∀ decided x v, Record.acted decided x ∈ t'.records → x.effect = .broadcast (.vote v) →
        ∃ m proposal start, x.machine = some m ∧
          v = (r.host services).ownVote m.epoch proposal ∧
          m.proposals.single? = some proposal ∧
          rotation count m.epoch = .ok proposal.sender ∧
          (r.host services).isValid proposal = .ok true ∧
          Record.started m.epoch start ∈ t'.records ∧
          Certificate.ranksAtLeast proposal.certificate start.locked = true ∧
          ∃ bs, x.world.1.Descends proposal.block.height.toNat proposal.block.id bs := by
  have hfresh := Replica.fresh_create created
  have hadmitted : ∀ i ∈ inputs, i.CarriesOnly fun _ => True := by
    rintro (_ | m | timeout) _
    · trivial
    · exact fun _ _ => trivial
    · trivial
  have horderly := Moves.orderly point (run_orderly created sync honest hadmitted ran)
  have hid : (r.host services).id = id := hfresh.own
  refine ⟨?_, ?_, ?_⟩
  · intro e
    have honce := horderly.signedOnce e
    unfold History.signedIn at honce
    rwa [hid, List.countP_eq_length_filter] at honce
  · intro decided x s hx hs
    rw [← hid] at hs
    exact ((horderly.accounted decided x hx).started_of_signed hs).1
  · intro decided x v hx hv
    rw [← hfresh.size]
    exact (horderly.accounted decided x hx).vote hv

/-! ### The second of two processes -/

def secondReplica : Replica :=
  { soloReplica with id := 1, count := 2, window := .ofConfig soloConfig 1 }

/-- The process starts and receives the proposal of the other one. -/
def secondInputs : List Input :=
  [.bootstrap, .message (.propose ⟨0, soloBlock, none, 0, 0, ⟨.fill 64 1⟩⟩)]

/-- In this run the process votes, and so signs the one block statement of the epoch. -/
theorem run_signing_second :
    ∃ t, (Turn.start secondReplica ()).run soloServices secondInputs = .ok t ∧
      History.blockStatements 1 t.records = [⟨0, .block 0 soloBlock.id⟩] ∧
      ∀ e, ((History.blockStatements 1 t.records).filter (·.epoch = e)).length ≤ 1 := by
  obtain ⟨t, hran, hsigned⟩ : ∃ t, (Turn.start secondReplica ()).run soloServices secondInputs =
      .ok t ∧ History.blockStatements 1 t.records = [⟨0, .block 0 soloBlock.id⟩] :=
    exists_of_toOption (by decide +kernel)
  have created : Replica.create 1 2 soloConfig = .ok secondReplica := rfl
  exact ⟨t, hran, hsigned, (run_signing created rfl rfl hran .refl).1⟩

end Turn

end EpochConsensus
