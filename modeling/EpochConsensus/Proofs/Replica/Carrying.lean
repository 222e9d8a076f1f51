import EpochConsensus.Proofs.Epoch.Justification
import EpochConsensus.Proofs.Replica.Discipline

/-! # What epochs are started with

An honest replica starts every epoch with certificates that a majority has signed in earlier epochs,
and neither the lock nor the highest certificate ever ranks below the one of an epoch before.  The
proposer of an epoch builds on the highest certificate that the epoch was started with, so whatever
it proposes is valid at every process, and ranks at least as high as its own lock (`run_carries`).
-/
namespace EpochConsensus

namespace Host

variable {σ : Type} {p : Host σ} {heard : Endorsement → Prop} {e : Epoch}

/-- A certificate that may be carried into an epoch is on a block, of an earlier epoch, and signed
by a majority. -/
theorem CertifiesBefore.justifies {c : Certificate} (h : p.CertifiesBefore heard e c) :
    (∃ height id, c.statement = ⟨c.epoch, .block height id⟩) ∧ c.hasQuorum p.count = true ∧
      c.epoch < e := by
  obtain ⟨d, hd, hc⟩ := h
  have hepoch : c.epoch = d := hc.epoch
  rw [hepoch]
  exact ⟨hc.block, hc.quorum, hd⟩

/-- An epoch that still waits for a certificate holds what it was started with. -/
theorem Faithful.carried {start : Carried} {m : Machine} (h : p.Faithful heard start m)
    (phase : m.phase = .ready) : m.valid = start.valid ∧ m.locked = start.locked :=
  h.holding.waiting (.inl phase)

end Host

namespace History

variable {τ : Type} {p : Host (Chain × τ)} {heard : Endorsement → Prop} {h : History τ}
  {decided : Option Epoch} {x : Moment (Chain × τ)}

/-- **A proposal** is built on the highest certificate that the epoch was started with, in an epoch
in which it is this process's turn. -/
theorem Accounted.proposal (hx : Accounted p heard h decided x) {proposal : Proposal}
    (hp : x.effect = .broadcast (.propose proposal)) :
    ∃ m start, x.machine = some m ∧ Started h m.epoch start ∧ m.locked = start.locked ∧
      p.proposer m.epoch = .ok p.id ∧ ∃ b value, Host.nextBlock start.valid value = .ok b ∧
        proposal = p.proposal m.epoch b start.valid := by
  cases hm : x.machine with
  | none =>
    have hquestion := hx.question hm
    rw [hp] at hquestion
    exact hquestion.elim
  | some m =>
    obtain ⟨hact, -, start, started, hfaithful⟩ := hx.act m hm
    rw [hp] at hact
    generalize hmessage : Message.propose proposal = message at hact
    cases hact with
    | @propose b value phase turn next =>
      obtain rfl := Message.propose.inj hmessage
      obtain ⟨hvalid, hlocked⟩ := hfaithful.carried phase
      rw [hvalid] at next ⊢
      exact ⟨m, start, rfl, started, hlocked, turn, b, value, next, rfl⟩
    | _ => cases hmessage

end History

namespace Turn

variable {τ : Type} {services : Services τ} {t t' : Turn τ}

/-- **Carried certificates.**  At every point `t'` of a run, with any messages and in the middle of
a call as well, each certificate that an epoch was started with is on a block, of an earlier epoch
and signed by a majority; the highest one ranks at least as high as the lock, and both rank at least
as high as those of every epoch before.  So every proposal that the replica sends to all is valid at
every replica of a system of the same size, and ranks at least as high as the replica's own lock. -/
theorem run_carries {id : ProcessId} {count : Nat} {config : Config} {r : Replica} {world : τ}
    {inputs : List Input} (created : Replica.create id count config = .ok r)
    (sync : config.model = .sync) (honest : config.isByzantine id = false)
    (ran : (Turn.start r world).run services inputs = .ok t)
    (point : Moves services (fun _ => True) t t') :
    (∀ e start, Record.started e start ∈ t'.records →
      (∀ c, c ∈ start.valid ∨ c ∈ start.locked →
        c.kind = .block ∧ c.epoch < e ∧ count / 2 < c.count) ∧
      Certificate.ranksAtLeast start.valid start.locked = true ∧
      ∀ d earlier, d < e → Record.started d earlier ∈ t'.records → start.RanksAtLeast earlier) ∧
    ∀ decided x proposal, Record.acted decided x ∈ t'.records →
      x.effect = .broadcast (.propose proposal) →
      (∀ {υ : Type} (q : Replica) (others : Services υ) (signature : Signature), q.count = count →
        (q.host others).isValid { proposal with signature } = .ok true) ∧
      ∃ m, x.machine = some m ∧
        Certificate.ranksAtLeast proposal.certificate m.locked = true := by
  have hfresh := Replica.fresh_create created
  have hadmitted : ∀ i ∈ inputs, i.CarriesOnly fun _ => True := by
    rintro (_ | m | timeout) _
    · trivial
    · exact fun _ _ => trivial
    · trivial
  have horderly := Moves.orderly point (run_orderly created sync honest hadmitted ran)
  have hcount : (r.host services).count = count := hfresh.size
  refine ⟨?_, ?_⟩
  · intro e start started
    obtain ⟨-, hinherits⟩ := horderly.consecutive.starts e start started
    refine ⟨?_, hinherits.ranks, ?_⟩
    · intro c hc
      have hbefore : (r.host services).CertifiesBefore (fun _ => True) e c :=
        hc.elim (hinherits.valid c) (hinherits.locked c)
      obtain ⟨⟨height, id, hstatement⟩, hquorum, hearlier⟩ := hbefore.justifies
      rw [hcount] at hquorum
      refine ⟨?_, hearlier, of_decide_eq_true hquorum⟩
      unfold Certificate.kind
      rw [hstatement]
      rfl
    · intro d earlier hd hearlier
      obtain ⟨c, hc, hranks⟩ :=
        horderly.consecutive.earlier e start started d (UInt64.le_of_lt hd)
      -- an epoch is started once
      obtain rfl := horderly.consecutive.once d earlier c hearlier hc
      exact hranks
  · intro decided x proposal hx hp
    obtain ⟨m, start, hm, started, hlocked, turn, b, value, next, rfl⟩ :=
      (horderly.accounted decided x hx).proposal hp
    obtain ⟨-, hinherits⟩ := horderly.consecutive.starts _ _ started
    refine ⟨?_, m, hm, ?_⟩
    · intro υ q others signature hq
      have hvalid := Host.isValid_proposal turn (fun c hc => (hinherits.valid c hc).justifies) next
      have hsame : (q.host others).count = (r.host services).count := hq.trans hcount.symm
      have hturns : (q.host others).proposer = (r.host services).proposer :=
        congrArg rotation hsame
      -- validity does not depend on the signature
      exact (Host.isValid_congr hsame hturns _).trans hvalid
    · rw [hlocked]
      exact hinherits.ranks

/-- The epoch was started with a lock. -/
def startedLocked (e : Epoch) : Record τ → Bool
  | .started d c => d = e && c.locked.isSome
  | .acted _ _ => false

/-- A proposal of the epoch was sent to all. -/
def proposed (e : Epoch) : Record τ → Bool
  | .acted _ ⟨.broadcast (.propose proposal), _, _⟩ => proposal.epoch = e
  | _ => false

theorem exists_of_startedLocked {e : Epoch} {h : History τ}
    (hany : h.any (startedLocked e) = true) :
    ∃ start c, Record.started e start ∈ h ∧ start.locked = some c := by
  obtain ⟨record, hrecord, hlocked⟩ := List.any_eq_true.mp hany
  cases record with
  | started d start =>
    obtain ⟨rfl, hsome⟩ : d = e ∧ start.locked.isSome = true := by
      simpa [startedLocked] using hlocked
    obtain ⟨c, hc⟩ := Option.isSome_iff_exists.mp hsome
    exact ⟨start, c, hrecord, hc⟩
  | acted => cases hlocked

theorem exists_of_proposed {e : Epoch} {h : History τ} (hany : h.any (proposed e) = true) :
    ∃ decided x proposal, Record.acted decided x ∈ h ∧
      x.effect = .broadcast (.propose proposal) ∧ proposal.epoch = e := by
  obtain ⟨record, hrecord, hproposed⟩ := List.any_eq_true.mp hany
  unfold proposed at hproposed
  split at hproposed
  · exact ⟨_, _, _, hrecord, rfl, of_decide_eq_true hproposed⟩
  · cases hproposed

/-- In this run the process locks its first block, starts the second epoch with that certificate,
and proposes on top of it. -/
theorem run_carries_solo :
    ∃ t, (Turn.start soloReplica ()).run soloServices soloInputs = .ok t ∧
      (∃ start c, Record.started 1 start ∈ t.records ∧ start.locked = some c ∧ c.kind = .block ∧
        c.epoch < 1 ∧ 1 / 2 < c.count) ∧
      ∃ decided x proposal, Record.acted decided x ∈ t.records ∧
        x.effect = .broadcast (.propose proposal) ∧ proposal.epoch = 1 ∧
        (soloReplica.host soloServices).isValid proposal = .ok true := by
  obtain ⟨t, hran, hrecords⟩ : ∃ t, (Turn.start soloReplica ()).run soloServices soloInputs =
      .ok t ∧ (t.records.any (startedLocked 1) && t.records.any (proposed 1)) = true :=
    exists_of_toOption (by decide +kernel)
  obtain ⟨hstarts, hproposals⟩ := run_carries create_solo rfl rfl hran .refl
  obtain ⟨hstarted, hproposed⟩ := Bool.and_eq_true_iff.mp hrecords
  refine ⟨t, hran, ?_, ?_⟩
  · obtain ⟨start, c, hstart, hc⟩ := exists_of_startedLocked hstarted
    obtain ⟨hkind, hearlier, hquorum⟩ := (hstarts 1 start hstart).1 c (.inr hc)
    exact ⟨start, c, hstart, hc, hkind, hearlier, hquorum⟩
  · obtain ⟨decided, x, proposal, hx, hp, hepoch⟩ := exists_of_proposed hproposed
    exact ⟨decided, x, proposal, hx, hp, hepoch,
      (hproposals decided x proposal hx hp).1 soloReplica soloServices proposal.signature rfl⟩

end Turn

end EpochConsensus
