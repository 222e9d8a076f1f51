import EpochConsensus.Proofs.Epoch.Relaying
import EpochConsensus.Proofs.Replica.Discipline
import EpochConsensus.Proofs.Replica.Sent
import EpochConsensus.Proofs.Verifier

/-! # What goes out verifies

Every message that an honest replica sends carries its own fresh signature, or signatures of others
that it has heard, each with the statement that it was made on (`Turn.Orderly.sent`).  So when all
that it handles has passed a verifier, every verifier with the same keys accepts all that it sends,
and reads it as the message that was sent (`Turn.run_verifies`).
-/
namespace EpochConsensus

namespace Turn

variable {τ : Type} {services : Services τ} {heard : Endorsement → Prop} {t t' : Turn τ}
  {p : Host (Chain × τ)}

/-! ### Passing on -/

/-- The epochs of the replica have only passed on signatures that were heard. -/
def Relays (heard : Endorsement → Prop) (t : Turn τ) : Prop :=
  ∀ decided x, Record.acted decided x ∈ t.records → x.effect.Relays heard

theorem Relays.absorb (h : t.Relays heard) (w : Window) {c : Context (Chain × τ)}
    (hc : c.Relays heard) : (t.absorb services w c).Relays heard := by
  intro decided x hx
  rcases List.mem_append.mp hx with hold | hnew
  · exact h decided x hold
  · obtain ⟨y, hy, heq⟩ := List.mem_map.mp hnew
    cases heq
    exact hc _ (by simpa using hy)

theorem Relays.recordStart (h : t.Relays heard) (e : Epoch) (carried : Carried)
    (rest : List Outcome) : Relays heard
      { t.settled rest with records := t.records ++ [Record.started e carried] } := by
  intro decided x hx
  rcases List.mem_append.mp hx with hold | hnew
  · exact h decided x hold
  · cases List.mem_singleton.mp hnew

/-- **Every move of an honest replica passes on only signatures that were heard.** -/
theorem Move.relays (move : Move services heard t t') (horderly : t.Orderly p heard services)
    (h : t.Relays heard) : t'.Relays heard := by
  have hstart : (t.context).Relays heard := Host.relays_start _
  cases move with
  | receive claimed admitted done kept =>
    obtain ⟨m, rfl, hm⟩ := horderly.standing_of_claim claimed
    obtain ⟨s', hs', -, rfl⟩ := Instance.ofStep_eq_ok done
    rw [horderly.host] at hs'
    exact h.absorb _ (Host.receive_relays hm.sound_or_finished admitted hs' hstart)
  | expire found done kept =>
    obtain ⟨m, rfl, hm⟩ := horderly.standing _ (Window.instance_cases found).1
    obtain ⟨s', hs', -, rfl⟩ := Instance.ofStep_eq_ok done
    rw [horderly.host] at hs'
    exact h.absorb _ (Host.expire_relays hm.sound_or_finished hs' hstart)
  | breakOff found running part kept =>
    obtain ⟨m, heq, hm⟩ := horderly.standing _ (Window.instance_cases found).1
    obtain rfl := Instance.consensus.inj heq
    rw [horderly.host] at part
    have hsound := hm.sound_or_finished.resolve_right running.2
    exact h.absorb _ (Host.Moves.relays part ⟨running.1, hsound⟩ hstart)
  | start due next found done kept =>
    obtain ⟨m, rfl, -, hwaiting⟩ := horderly.waiting_next next found
    obtain ⟨s', hs', -, rfl⟩ := Instance.ofStep_eq_ok done
    rw [horderly.host] at hs'
    obtain ⟨hvalid, hlocked⟩ := horderly.heard_due due next
    exact (h.recordStart _ _ _).absorb _ (Host.start_relays hwaiting hvalid hlocked hs' hstart)
  | breakStart due next found begun part kept =>
    obtain ⟨m, heq, -, hwaiting⟩ := horderly.waiting_next next found
    obtain rfl := Instance.consensus.inj heq
    rw [horderly.host] at begun part
    obtain ⟨hvalid, hlocked⟩ := horderly.heard_due due next
    exact (h.recordStart _ _ _).absorb _
      (Host.begun_relays hwaiting.sound hvalid hlocked begun hstart part)
  | drop | defer | cutOff | decide => exact h

theorem Moves.relays (moves : Moves services heard t t') (horderly : t.Orderly p heard services)
    (h : t.Relays heard) : t'.Relays heard := by
  induction moves with
  | refl => exact h
  | tail before move ih => exact move.relays (Moves.orderly before horderly) ih

theorem relays_start (r : Replica) (world : τ) : (Turn.start r world).Relays heard := by
  intro decided x hx
  cases hx

end Turn

/-! ### Signing -/

/-- A replica signs what it is the author of. -/
theorem Replica.sign_own {τ : Type} (services : Services τ) (r : Replica) {m : Message}
    {s : Statement} (author : m.sender? = some r.id) (states : m.statement? = some s) :
    r.sign services m = m.withSignature (services.sign s.payload) := by
  simp [sign, Message.statementBy?, author, states]

namespace History

variable {τ : Type} {services : Services τ} {r : Replica} {heard : Endorsement → Prop}
  {h : History τ} {decided : Option Epoch} {x : Moment (Chain × τ)}

/-- What a replica signs and sends to all carries its own signature besides those that it has
heard. -/
theorem Accounted.carriesOnly_sign (hx : Accounted (r.host services) heard h decided x)
    (relays : x.effect.Relays heard)
    (own : ∀ s : Statement, heard ⟨r.id, s, services.sign s.payload⟩) {m : Message}
    (hm : x.effect = .broadcast m) : (r.sign services m).CarriesOnly heard := by
  cases hmachine : x.machine with
  | none =>
    have hquestion := hx.question hmachine
    rw [hm] at hquestion
    exact hquestion.elim
  | some machine =>
    obtain ⟨hact, -, start, started, hfaithful⟩ := hx.act machine hmachine
    rw [hm] at hact relays
    cases hact with
    | propose phase turn next =>
      rw [r.sign_own services rfl rfl]
      intro e he
      rcases List.mem_cons.mp he with rfl | hbelow
      · exact own _
      -- the certificate below the block is the highest that the epoch holds
      · cases hc : machine.valid with
        | none => simp [Host.proposal, hc] at hbelow
        | some c =>
          exact hfaithful.sound.valid c hc e (by simpa [Host.proposal, hc] using hbelow)
    | @vote proposal votable =>
      -- the proposer has signed the same statement, since its proposal is of this epoch
      have hsingle := machine.proposals.mem_single? (votable hfaithful.honest).single
      obtain ⟨hepoch, -, hheard⟩ := hfaithful.sound.proposals _ hsingle
      have hproposer := hheard _ List.mem_cons_self
      rw [Proposal.statement, hepoch] at hproposer
      rw [r.sign_own services rfl rfl]
      intro e he
      rcases List.mem_append.mp he with hsecond | hfirst
      · obtain rfl := List.mem_singleton.mp hsecond
        exact hproposer
      · obtain rfl := List.mem_singleton.mp hfirst
        exact own _
    | accuse =>
      rw [r.sign_own services rfl rfl]
      intro e he
      obtain rfl := List.mem_singleton.mp he
      exact own _
    | quitEpoch c => exact relays

/-- So does whatever it sends. -/
theorem Accounted.carriesOnly_sent (hx : Accounted (r.host services) heard h decided x)
    (relays : x.effect.Relays heard)
    (own : ∀ s : Statement, heard ⟨r.id, s, services.sign s.payload⟩) {env : Envelope}
    (sent : r.action? services x.effect = some (.send env)) : env.message.CarriesOnly heard := by
  cases heffect : x.effect with
  | broadcast m =>
    rw [heffect] at sent
    cases sent
    exact hx.carriesOnly_sign relays own heffect
  | forward m =>
    rw [heffect] at sent relays
    cases sent
    exact relays
  | send m recipients =>
    -- only an equivocating process picks the recipients
    cases hmachine : x.machine with
    | none =>
      have hquestion := hx.question hmachine
      rw [heffect] at hquestion
      exact hquestion.elim
    | some machine =>
      obtain ⟨hact, -, start, started, hfaithful⟩ := hx.act machine hmachine
      rw [heffect] at hact
      cases hact with
      | send faulty =>
        rw [Policy.splits_eq_false hfaithful.honest] at faulty
        cases faulty
  | request t accepted =>
    rw [heffect] at sent
    simp only [Replica.action?] at sent
    split at sent <;> cases sent
  | takeValue | addBlock | decide | finish =>
    rw [heffect] at sent
    cases sent

end History

namespace Turn

variable {τ : Type} {services : Services τ} {heard : Endorsement → Prop} {t t' : Turn τ}

/-- **All that an honest replica has sent carries its own signatures and such as it has heard.** -/
theorem Orderly.carriesOnly_sent {p : Host (Chain × τ)} (h : t.Orderly p heard services)
    (documented : t.Documented services) (relays : t.Relays heard)
    (own : ∀ s : Statement, heard ⟨t.replica.id, s, services.sign s.payload⟩) {env : Envelope}
    (sent : Action.send env ∈ t.actions) : env.message.CarriesOnly heard := by
  obtain rfl := h.host
  obtain ⟨decided, x, hx, haction⟩ := documented env sent
  exact (h.accounted decided x hx).carriesOnly_sent (relays decided x hx) own haction

/-- **What is sent verifies.**  Call an honest replica, whose signatures the key at its id in a
table confirms, with messages that passed verifiers with this table.  At every point `t'` of a run,
in the middle of a call as well, every verifier with the same table accepts all the bytes that the
replica has sent, and reads them as the message that was sent, whatever it has seen before; the
blocks in proposals are supposed to be shorter than four bytes can tell. -/
theorem run_verifies {κ : Type} {check : κ → Bytes → Signature → Bool} {keys : List κ}
    {id : ProcessId} {count : Nat} {config : Config} {r : Replica} {world : τ}
    {inputs : List Input} (created : Replica.create id count config = .ok r)
    (sync : config.model = .sync) (honest : config.isByzantine id = false)
    (matching : ∃ key, keys[id.toNat]? = some key ∧
      ∀ bytes, check key bytes (services.sign bytes) = true)
    (unsigned : ∀ key ∈ keys, ∀ bytes, check key bytes .empty = false)
    (verified : ∀ m, Input.message m ∈ inputs → Verifier.Passes check keys m)
    (ran : (Turn.start r world).run services inputs = .ok t)
    (point : Moves services (Verifier.Confirms check keys) t t') :
    ∀ env, Action.send env ∈ t'.actions →
      (∀ proposal, env.message = .propose proposal → proposal.block.byteSize < 2 ^ 32) →
      ∀ v : Verifier κ, v.keys = keys → (v.verify check env.bytes).1 = .ok env.message := by
  have hfresh := Replica.fresh_create created
  have hadmitted : ∀ i ∈ inputs, i.CarriesOnly (Verifier.Confirms check keys) := by
    rintro (_ | m | timeout) hi
    · trivial
    · exact (verified m hi).confirmed
    · trivial
  have hmoves : Moves services (Verifier.Confirms check keys) (Turn.start r world) t' :=
    (run_moves (atRest_start hfresh.deferred world) hadmitted ran).1.trans point
  have hstart : (Turn.start r world).Orderly (r.host services) (Verifier.Confirms check keys)
      services := orderly_start hfresh sync honest world
  have horderly := Moves.orderly hmoves hstart
  have hdocumented := Moves.documented hmoves (documented_start r world)
  have hrelays := Moves.relays hmoves hstart (relays_start r world)
  have hid : t'.replica.id = id := by
    have hhost := congrArg Host.id horderly.host
    exact hhost.trans hfresh.own
  have hown : ∀ s : Statement,
      Verifier.Confirms check keys ⟨t'.replica.id, s, services.sign s.payload⟩ := by
    obtain ⟨key, hkey, hsign⟩ := matching
    rw [hid]
    exact fun s => ⟨key, hkey, hsign s.payload⟩
  rintro env sent short v rfl
  have hconfirmed := horderly.carriesOnly_sent hdocumented hrelays hown sent
  exact Verifier.verify_encode (Verifier.writable_of_confirmed unsigned hconfirmed short) hconfirmed

/-- A check for which one signature is good for everything. -/
def onesCheck (_ : Unit) (_ : Bytes) (s : Signature) : Bool := s = ⟨.fill 64 1⟩

/-- The vote of the second of two processes, with the signature of the first one. -/
def secondVote : Message := .vote ⟨0, 0, soloBlock.id, 1, ⟨.fill 64 1⟩, 0, some ⟨.fill 64 1⟩⟩

/-- In this run the second of two processes passes a proposal on that it has received as bytes, and
its vote carries the signature from there; every verifier for the two accepts the vote. -/
theorem run_verifies_second :
    ∃ t, (Turn.start secondReplica ()).run soloServices secondInputs = .ok t ∧
      Action.send ⟨1, .all, secondVote⟩ ∈ t.actions ∧
      ∀ v : Verifier Unit, v.keys = [(), ()] →
        (v.verify onesCheck secondVote.encode).1 = .ok secondVote := by
  obtain ⟨t, hran, hsent⟩ : ∃ t, (Turn.start secondReplica ()).run soloServices secondInputs =
      .ok t ∧ decide (Action.send ⟨1, .all, secondVote⟩ ∈ t.actions) = true :=
    exists_of_toOption (by decide +kernel)
  have created : Replica.create 1 2 soloConfig = .ok secondReplica := rfl
  have verified : ∀ m, Input.message m ∈ secondInputs →
      Verifier.Passes onesCheck [(), ()] m := by
    intro m hm
    obtain rfl : m = .propose ⟨0, soloBlock, none, 0, 0, ⟨.fill 64 1⟩⟩ := by
      simpa [secondInputs] using hm
    exact ⟨1, [Message.encode (.propose ⟨0, soloBlock, none, 0, 0, ⟨.fill 64 1⟩⟩)],
      by decide +kernel⟩
  have matching : ∃ key, [(), ()][(1 : ProcessId).toNat]? = some key ∧
      ∀ bytes, onesCheck key bytes (soloServices.sign bytes) = true := ⟨(), rfl, fun _ => rfl⟩
  have hsent := of_decide_eq_true hsent
  have hverifies := run_verifies created rfl rfl matching (fun _ _ _ => rfl) verified hran .refl
  exact ⟨t, hran, hsent, hverifies _ hsent fun _ heq => by cases heq⟩

end Turn

end EpochConsensus
