import EpochConsensus.Proofs.Epoch.Acts

/-! # What an epoch signs

A process signs what it sends in its own name, and only a proposal or a vote is on a block.  In an
honest epoch what is signed is of the epoch itself (`Signs.epoch`), and the block statements
signed so far and those still to come are never more than one: a move signs what it is still allowed
to (`Move.signing`), and beginning uses up the proposer's (`begin_signing`).
-/
namespace EpochConsensus

/-- Whether a statement is on a block. -/
def Statement.isBlock (s : Statement) : Bool := s.subject ≠ .silence

namespace Effect

/-- The statement that a process signs with an effect. -/
def signed? (process : ProcessId) : Effect → Option Statement
  | broadcast m | send m _ => m.statementBy? process
  | _ => none

/-- The block statement that a process signs with an effect. -/
def blockSigned? (process : ProcessId) (e : Effect) : Option Statement :=
  (e.signed? process).filter (·.isBlock)

end Effect

/-- The number of block statements that a process has signed in a call. -/
def Context.blocksSigned {σ : Type} (process : ProcessId) (c : Context σ) : Nat :=
  c.moments.countP fun x => (x.effect.blockSigned? process).isSome

namespace Host

variable {σ : Type} (p : Host σ)

/-- The number of block statements that an epoch may still sign once it has begun: the vote of a
process that does not propose. -/
def signaturesLeft (m : Machine) : Nat :=
  match p.proposer m.epoch with
  | .ok q => if q = p.id ∨ m.hasVoted = true then 0 else 1
  | .error _ => 0

variable {p} {heard : Endorsement → Prop}

theorem signaturesLeft_le (m : Machine) : p.signaturesLeft m ≤ 1 := by
  unfold signaturesLeft
  split
  · split <;> omega
  · omega

theorem signaturesLeft_congr {m m' : Machine} (epoch : m'.epoch = m.epoch)
    (voted : m'.hasVoted = m.hasVoted) : p.signaturesLeft m' = p.signaturesLeft m := by
  unfold signaturesLeft
  rw [epoch, voted]

/-! ### Acts -/

/-- How an honest epoch comes to sign a block statement: with a proposal or with a vote. -/
inductive Signs (p : Host σ) (m : Machine) (world : σ) : Statement → Prop
  | propose {b : Block} {value : Bytes} (phase : m.phase = .ready)
      (turn : p.proposer m.epoch = .ok p.id) (next : nextBlock m.valid value = .ok b) :
      Signs p m world ⟨m.epoch, .block b.height b.id⟩
  | vote {proposal : Proposal} (votable : p.Votable proposal m world) :
      Signs p m world ⟨m.epoch, .block proposal.block.height proposal.block.id⟩

/-- What an honest epoch signs on a block is of the epoch. -/
theorem Signs.epoch {m : Machine} {world : σ} {s : Statement} (h : p.Signs m world s) :
    s.epoch = m.epoch := by
  cases h with
  | propose => rfl
  | vote => rfl

/-- An honest epoch signs a block statement only with a proposal or with a vote. -/
theorem Act.signs {m : Machine} {world : σ} {e : Effect} (act : p.Act m world e)
    (honest : m.policy.isHonest = true) {s : Statement} (h : e.blockSigned? p.id = some s) :
    p.Signs m world s := by
  obtain ⟨h, block⟩ := Option.filter_eq_some_iff.mp h
  cases act with
  | @propose b value phase turn next =>
    have hs : s = ⟨m.epoch, .block b.height b.id⟩ := by
      simpa [Effect.signed?, Message.statementBy?, Message.sender?, Message.statement?,
        Proposal.statement, proposal, eq_comm] using h
    rw [hs]
    exact .propose phase turn next
  | @vote proposal votable =>
    have hs : s = ⟨m.epoch, .block proposal.block.height proposal.block.id⟩ := by
      simpa [Effect.signed?, Message.statementBy?, Message.sender?, Message.statement?,
        Vote.statement, ownVote, Proposal.vote, eq_comm] using h
    rw [hs]
    exact .vote (votable honest)
  | accuse =>
    have hs : s = ⟨m.epoch, .silence⟩ := by
      simpa [Effect.signed?, Message.statementBy?, Message.sender?, Message.statement?,
        Silence.statement, eq_comm] using h
    simp [hs, Statement.isBlock] at block
  | send faulty =>
    -- only an equivocating process sends to some of the others
    rw [Policy.splits_eq_false honest] at faulty
    cases faulty
  | forward | quitEpoch | decide | finish =>
    simp [Effect.signed?, Message.statementBy?, Message.sender?] at h

/-! ### Moves -/

variable {s s' : Step σ} {i : ProcessId}

theorem blocksSigned_emit (e : Effect) :
    (s.emit e).toContext.blocksSigned i =
      s.toContext.blocksSigned i + if (e.blockSigned? i).isSome then 1 else 0 := by
  show Array.countP _ (Array.push _ _) = _
  rw [Array.countP_push]
  rfl

/-- What signs nothing leaves the count as it is. -/
theorem blocksSigned_emit_of_none {e : Effect} (h : e.blockSigned? i = none) :
    (s.emit e).toContext.blocksSigned i = s.toContext.blocksSigned i := by
  rw [blocksSigned_emit, h]
  rfl

theorem blocksSigned_ask {c : Context σ} {world : σ} {e : Effect} (he : e.IsQuestion) :
    ({ c with world }.emit e).blocksSigned i = c.blocksSigned i := by
  show Array.countP _ (Array.push _ _) = _
  rw [Array.countP_push]
  have hnone : e.blockSigned? i = none := by
    cases e <;> first | rfl | exact he.elim
  rw [hnone]
  rfl

theorem blocksSigned_of_asks {c c' : Context σ} (h : p.Asks c c') :
    c'.blocksSigned i = c.blocksSigned i := by
  rcases h with rfl | ⟨t, rfl⟩
  · rfl
  · exact blocksSigned_ask trivial

theorem blocksSigned_store {c c' : Context σ} {b : Block} {added : Bool}
    (h : p.store c b = .ok (added, c')) : c'.blocksSigned i = c.blocksSigned i := by
  unfold store at h
  simp only [pure, Except.pure] at h
  obtain ⟨⟨answer, world⟩, -, h⟩ := bind_eq_ok.mp h
  cases h
  exact blocksSigned_ask trivial

theorem blocksSigned_forwardAll (bs : List Ballot) :
    (s.forwardAll bs).toContext.blocksSigned i = s.toContext.blocksSigned i := by
  induction bs generalizing s with
  | nil => rfl
  | cons b bs ih => exact (ih (s := s.emit _)).trans (blocksSigned_emit_of_none rfl)

/-- **A move of an honest epoch signs a block statement only if it may.**  What it has signed and
what it may still sign do not grow together. -/
theorem Move.signing (move : p.Move heard s s') (honest : s.machine.policy.isHonest = true) :
    s'.toContext.blocksSigned p.id + p.signaturesLeft s'.machine ≤
      s.toContext.blocksSigned p.id + p.signaturesLeft s.machine := by
  cases move with
  | schedule timers asked => exact Nat.le_of_eq (by rw [blocksSigned_of_asks asked]; rfl)
  | refuse asked => exact Nat.le_of_eq (by rw [blocksSigned_store asked])
  | enlist fresh valid admitted asked =>
    show _ + p.signaturesLeft (Machine.enlist _ _) ≤ _
    have hleft : ∀ proposal, p.signaturesLeft (s.machine.enlist proposal) =
        p.signaturesLeft s.machine := by
      intro proposal
      obtain ⟨proposals, heq⟩ := enlist_eq s.machine proposal
      rw [heq]
      exact signaturesLeft_congr rfl rfl
    exact Nat.le_of_eq (by rw [blocksSigned_store asked, hleft])
  | expose => rw [blocksSigned_forwardAll, Step.forwardAll_machine]; exact Nat.le_refl _
  | lock | pass =>
    rw [blocksSigned_emit_of_none rfl, blocksSigned_emit_of_none rfl]
    exact Nat.le_refl _
  | relay | commit | leave | quit =>
    rw [blocksSigned_emit_of_none rfl]
    exact Nat.le_refl _
  | accuse =>
    rw [blocksSigned_emit_of_none]
    · exact Nat.le_refl _
    · simp [Effect.blockSigned?, Effect.signed?, Message.statementBy?, Message.sender?,
        Message.statement?, Silence.statement, Statement.isBlock]
  | @cast proposal admitted votable =>
    -- the one move that signs a block: the vote was still to come, and now it is not
    obtain ⟨fresh, ⟨q, turn, other⟩, -, -, -⟩ := votable honest
    have hbefore : p.signaturesLeft s.machine = 1 := by
      simp [signaturesLeft, turn, other, fresh]
    have hafter : p.signaturesLeft (p.cast proposal s).machine = 0 := by
      show p.signaturesLeft { s.machine with hasVoted := true } = 0
      simp [signaturesLeft, turn]
    have hcount : (p.cast proposal s).toContext.blocksSigned p.id ≤
        s.toContext.blocksSigned p.id + 1 := by
      show ((s.emit _).emit _).toContext.blocksSigned p.id ≤ _
      rw [blocksSigned_emit, blocksSigned_emit_of_none rfl]
      split <;> omega
    omega
  | follow faulty => rw [honest] at faulty; cases faulty
  | split faulty =>
    rw [Policy.splits_eq_false honest] at faulty
    cases faulty
  | _ => exact Nat.le_refl _

/-- **So does a path of moves.** -/
theorem Moves.signing (moves : p.Moves heard s s') (honest : s.machine.policy.isHonest = true) :
    s'.toContext.blocksSigned p.id + p.signaturesLeft s'.machine ≤
      s.toContext.blocksSigned p.id + p.signaturesLeft s.machine := by
  induction moves with
  | refl => exact Nat.le_refl _
  | tail moves move ih =>
    have hpolicy := (Moves.fixed moves).policy
    exact Nat.le_trans (move.signing (hpolicy ▸ honest)) ih

/-- **Beginning leaves an honest process with at most one signature**, given or to come. -/
theorem begin_signing (honest : s.machine.policy.isHonest = true) (done : p.begin s = .ok s') :
    s'.toContext.blocksSigned p.id + p.signaturesLeft s'.machine ≤
      s.toContext.blocksSigned p.id + 1 := by
  have hschedule : ∀ kind, (p.schedule kind s).toContext.blocksSigned p.id =
      s.toContext.blocksSigned p.id := by
    intro kind
    obtain ⟨c, timers, asked, heq⟩ := p.schedule_eq kind s
    rw [heq, blocksSigned_of_asks asked]
  have hmachine := begin_machine done
  unfold begin at done
  simp only [pure, Except.pure] at done
  obtain ⟨q, turn, done⟩ := bind_eq_ok.mp done
  by_cases hq : q = p.id
  · subst hq
    -- the proposer has no vote left, and signs at most its proposal
    have hleft : p.signaturesLeft s'.machine = 0 := by
      obtain ⟨timers, heq⟩ := hmachine
      simp [heq, signaturesLeft, turn]
    rw [if_pos rfl] at done
    unfold lead at done
    simp only [pure, Except.pure, Policy.splits_eq_false honest, Bool.not_false, if_true] at done
    unfold propose at done
    simp only [pure, Except.pure] at done
    have hasked : (p.takeValue s.toContext).2.blocksSigned p.id = s.toContext.blocksSigned p.id :=
      blocksSigned_ask trivial
    generalize p.takeValue s.toContext = asked at done hasked
    obtain ⟨value, c⟩ := asked
    split at done
    · cases done
      rw [hleft]
      simp only at hasked ⊢
      omega
    · obtain ⟨b, -, done⟩ := bind_eq_ok.mp done
      cases done
      rw [hleft, blocksSigned_emit]
      simp only at hasked ⊢
      split <;> omega
  · rw [if_neg hq] at done
    cases done
    have := p.signaturesLeft_le (p.schedule .propose s).machine
    rw [hschedule]
    omega

end Host

end EpochConsensus
