import EpochConsensus.Epoch.Instance
import EpochConsensus.Proofs.Basic

/-! # The faults that an epoch meets

An epoch asks its host who proposes and hands blocks to it; what fails there ends the call.  Of its
own it adds only the overflow of a counter and a block that does not fit on its predecessor
(`Instance.receive_meets`, `Instance.expire_meets`, `Instance.start_meets`).
-/
namespace EpochConsensus

/-- A computation meets no faults but those of a kind. -/
def Meets {α : Type} (kind : Fault → Prop) (x : Except Fault α) : Prop := ∀ f, x = .error f → kind f

namespace Meets

variable {α β : Type} {kind : Fault → Prop} {x : Except Fault α} {f : α → Except Fault β}

theorem ok (a : α) : Meets kind (.ok a : Except Fault α) := nofun

theorem pure (a : α) : Meets kind (Pure.pure a : Except Fault α) := ok a

theorem error {e : Fault} (h : kind e) : Meets kind (.error e : Except Fault α) := by
  rintro _ ⟨⟩
  exact h

/-- A sequence meets the faults of its parts. -/
theorem bind (hx : Meets kind x) (hf : ∀ a, x = .ok a → Meets kind (f a)) :
    Meets kind (x >>= f) := by
  cases x with
  | error e => exact error (hx e rfl)
  | ok a => exact hf a rfl

theorem ite {c : Prop} [Decidable c] {y z : Except Fault α} (hy : c → Meets kind y)
    (hz : ¬ c → Meets kind z) : Meets kind (if c then y else z) := by
  split
  · exact hy ‹c›
  · exact hz ‹¬ c›

theorem foldlM {f : β → α → Except Fault β} (round : ∀ b a, Meets kind (f b a)) (xs : List α)
    (b : β) : Meets kind (xs.foldlM f b) := by
  induction xs generalizing b with
  | nil => exact pure b
  | cons a xs ih =>
    rw [List.foldlM_cons]
    exact bind (round b a) fun c _ => ih c

end Meets

section
variable {kind : Fault → Prop}

theorem meets_successor (overflow : kind .overflow) (n : UInt64) : Meets kind (successor n) :=
  .ite (fun _ => .error overflow) fun _ => .ok _

theorem meets_remainder (zero : kind .zeroModulus) (a n : Nat) : Meets kind (remainder a n) :=
  .ite (fun _ => .error zero) fun _ => .ok _

end

namespace Host

variable {σ : Type} (p : Host σ)

/-- The host meets no faults but those of a kind, and what an epoch adds is of this kind, too. -/
structure Answering (kind : Fault → Prop) : Prop where
  proposer : ∀ e, Meets kind (p.proposer e)
  addBlock : ∀ b w, Meets kind (p.addBlock b w)
  overflow : kind .overflow
  unrooted : kind .unrooted
  zero : kind .zeroModulus

variable {p} {kind : Fault → Prop}

/-! ### Votes and proposals -/

theorem onVote_meets (hp : p.Answering kind) (v : Vote) (s : Step σ) :
    Meets kind (p.onVote v s) := by
  unfold onVote
  refine .ite (fun _ => .pure _) fun _ => .bind (hp.proposer _) fun proposer _ => ?_
  exact .ite (fun _ => .pure _) fun _ => .pure _

theorem isValid_meets (hp : p.Answering kind) (proposal : Proposal) :
    Meets kind (p.isValid proposal) := by
  have hjustified : Meets kind (p.isJustified proposal) := by
    unfold isJustified
    split
    · exact .ok _
    · split
      · exact .ok _
      · exact .ite (fun _ => .bind (meets_successor hp.overflow _) fun _ _ => .pure _)
          fun _ => .ok _
  unfold isValid
  exact .bind (hp.proposer _) fun _ _ => .bind hjustified fun _ _ => .pure _

theorem voteFor_meets (hp : p.Answering kind) (proposal : Proposal) (s : Step σ) :
    Meets kind (p.voteFor proposal s) := by
  unfold voteFor
  exact .bind (onVote_meets hp _ _) fun _ _ => .pure _

theorem tryToVote_meets (hp : p.Answering kind) (s : Step σ) : Meets kind (p.tryToVote s) := by
  unfold tryToVote
  refine .ite (fun _ => .pure _) fun _ => .bind (hp.proposer _) fun _ _ => ?_
  refine .ite (fun _ => .pure _) fun _ => ?_
  split
  · exact .pure _
  · exact .ite (fun _ => voteFor_meets hp _ _) fun _ => .pure _

theorem voteAnyway_meets (hp : p.Answering kind) (proposal : Proposal) (s : Step σ) :
    Meets kind (p.voteAnyway proposal s) := by
  unfold voteAnyway
  exact .bind (voteFor_meets hp _ _) fun _ _ => .ite (fun _ => .pure _) fun _ => .pure _

theorem store_meets (hp : p.Answering kind) (c : Context σ) (b : Block) :
    Meets kind (p.store c b) := by
  unfold store
  exact .bind (hp.addBlock _ _) fun _ _ => .pure _

theorem onProposal_meets (hp : p.Answering kind) (proposal : Proposal) (s : Step σ) :
    Meets kind (p.onProposal proposal s) := by
  unfold onProposal
  refine .ite (fun _ => .pure _) fun _ => .bind (isValid_meets hp _) fun _ _ => ?_
  refine .ite (fun _ => .pure _) fun _ => .bind (store_meets hp _ _) fun _ _ => ?_
  refine .ite (fun _ => .pure _) fun _ => ?_
  exact .ite (fun _ => .bind (tryToVote_meets hp _) fun _ _ => .pure _)
    fun _ => .bind (voteAnyway_meets hp _ _) fun _ _ => .pure _

/-! ### Messages and timeouts -/

theorem onBallot_meets (hp : p.Answering kind) (b : Ballot) (s : Step σ) :
    Meets kind (p.onBallot b s) := by
  cases b with
  | silence b => exact .ok _
  | vote v => exact onVote_meets hp v s

theorem whileActive_meets {handle : Step σ → Except Fault (Step σ)}
    (handled : ∀ s, Meets kind (handle s)) (s : Step σ) : Meets kind (p.whileActive handle s) := by
  unfold whileActive
  exact .ite (fun _ => .ok _) fun _ => handled _

theorem onMessage_meets (hp : p.Answering kind) (m : Message) (s : Step σ) :
    Meets kind (p.onMessage m s) := by
  cases m with
  | propose proposal => exact onProposal_meets hp proposal s
  | vote v => exact onVote_meets hp v s
  | quitEpoch c =>
    refine .ite (fun _ => .ok _) fun _ => .foldlM (fun s b => ?_) _ _
    exact whileActive_meets (onBallot_meets hp b) s
  | silence | certificate | probe | answer => exact .ok _

theorem receive_meets (hp : p.Answering kind) (m : Message) (s : Step σ) :
    Meets kind (p.receive m s) :=
  .ite (fun _ => .ok _) fun _ => whileActive_meets (onMessage_meets hp m) s

theorem nextBlock_meets (hp : p.Answering kind) (parent : Option Certificate) (value : Bytes) :
    Meets kind (nextBlock parent value) := by
  unfold nextBlock
  split
  · exact .ok _
  · split
    · exact .ok _
    · refine .bind (meets_successor hp.overflow _) fun _ _ => ?_
      unfold Block.create
      split
      · exact .ok _
      · exact .error hp.unrooted

theorem proposeSplit_meets (hp : p.Answering kind) (s : Step σ) :
    Meets kind (p.proposeSplit s) := by
  unfold proposeSplit
  simp only
  split
  · exact .bind (nextBlock_meets hp _ _) fun _ _ => .bind (nextBlock_meets hp _ _)
      fun _ _ => .pure _
  · exact .pure _

theorem expire_meets (hp : p.Answering kind) (t : Timeout) (s : Step σ) :
    Meets kind (p.expire t s) := by
  unfold expire
  refine .ite (fun _ => .ok _) fun _ => ?_
  cases t.kind with
  | propose => exact .ite (fun _ => .ok _) fun _ => .ok _
  | equivocation => exact .ok _
  | quitEpoch => exact .ite (fun _ => .ok _) fun _ => .ok _
  | epochChange =>
    refine .ite (fun _ => .pure _) fun _ => .bind (hp.proposer _) fun _ _ => ?_
    exact .ite (fun _ => proposeSplit_meets hp _) fun _ => .pure _

/-! ### Starts -/

theorem propose_meets (hp : p.Answering kind) (s : Step σ) : Meets kind (p.propose s) := by
  unfold propose
  simp only
  split
  · exact .pure _
  · exact .bind (nextBlock_meets hp _ _) fun _ _ => .pure _

theorem begin_meets (hp : p.Answering kind) (s : Step σ) : Meets kind (p.begin s) := by
  have hfollows : Meets kind (followsLock s) := by
    unfold followsLock
    split
    · exact .ok _
    · exact .bind (meets_successor hp.overflow _) fun _ _ => .pure _
  unfold begin
  refine .bind (hp.proposer _) fun _ _ => .ite (fun _ => ?_) fun _ => .pure _
  unfold lead
  refine .ite (fun _ => propose_meets hp s) fun _ => .bind hfollows fun _ _ => ?_
  exact .ite (fun _ => proposeSplit_meets hp s) fun _ => .pure _

theorem start_meets (hp : p.Answering kind) (valid locked : Option Certificate) (s : Step σ) :
    Meets kind (p.start valid locked s) := by
  unfold start
  refine .ite (fun _ => .pure _) fun _ => .ite (fun _ => .pure _) fun _ => ?_
  exact .bind (begin_meets hp _) fun _ _ => .foldlM (fun s m => receive_meets hp m s) _ _

end Host

namespace Instance

variable {σ : Type} {p : Host σ} {kind : Fault → Prop}

theorem ofStep_meets {r : Except Fault (Step σ)} (h : Meets kind r) : Meets kind (ofStep r) :=
  .bind h fun _ _ => .pure _

theorem receive_meets (hp : p.Answering kind) (m : Message) (inst : Instance) (c : Context σ) :
    Meets kind (inst.receive p m c) := by
  cases inst with
  | consensus machine => exact ofStep_meets (Host.receive_meets hp m _)
  | probe b =>
    refine .bind ?_ fun _ _ => .pure _
    cases m with
    | answer e => exact .bind (meets_remainder hp.zero _ _) fun _ _ => .pure _
    | propose | silence | vote | quitEpoch | certificate | probe => exact .ok _

theorem expire_meets (hp : p.Answering kind) (t : Timeout) (inst : Instance) (c : Context σ) :
    Meets kind (inst.expire p t c) := by
  cases inst with
  | consensus machine => exact ofStep_meets (Host.expire_meets hp t _)
  | probe b => exact .ok _

theorem start_meets (hp : p.Answering kind) (valid locked : Option Certificate)
    (inst : Instance) (c : Context σ) : Meets kind (inst.start p valid locked c) := by
  cases inst with
  | consensus machine => exact ofStep_meets (Host.start_meets hp valid locked _)
  | probe b => exact .ok _

end Instance

end EpochConsensus
