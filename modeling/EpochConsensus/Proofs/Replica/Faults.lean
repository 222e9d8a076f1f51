import EpochConsensus.Proofs.Epoch.Faults
import EpochConsensus.Proofs.Replica.Paths

/-! # Where a commit fails

A commit is made at one place only, where a new decision is settled, and nothing else that a replica
does fails in the way of a commit.  So a call that fails in this way has come along its path to a
point at which the commit of the oldest outcome fails (`Turn.take_fault`).
-/
namespace EpochConsensus

/-- A commit reaches a height where no block is stored, or a block that is not linked. -/
def Fault.OfCommit : Fault → Prop
  | missing _ _ _ | unlinked _ _ _ => True
  | _ => False

/-- Faults that no commit meets. -/
def Fault.Apart (f : Fault) : Prop := ¬ f.OfCommit

theorem Fault.apart_overflow : Fault.Apart .overflow := id

theorem Fault.apart_unrooted : Fault.Apart .unrooted := id

theorem Fault.apart_zeroModulus : Fault.Apart .zeroModulus := id

theorem Chain.add_meets (c : Chain) (b : Block) : Meets Fault.Apart (c.add b) := by
  have hsuccessor : ∀ n, Meets Fault.Apart (successor n) := meets_successor Fault.apart_overflow
  have hfollows : ∀ anchor, Meets Fault.Apart (b.follows (some anchor)) := fun _ =>
    .bind (hsuccessor _) fun _ _ => .pure _
  have hconflicts : Meets Fault.Apart (c.conflicts b) := by
    unfold conflicts
    split
    · exact .ok _
    · refine .bind (hsuccessor _) fun _ _ => .ite (fun _ => ?_) fun _ => .pure _
      exact .bind (hfollows _) fun _ _ => .pure _
  have hlink : ∀ d : Chain, Meets Fault.Apart (d.linkSuccessors b) := by
    intro d
    refine .bind (hsuccessor _) fun _ _ => ?_
    simp only
    split
    · exact .pure _
    · exact .pure _
  unfold add
  refine .ite (fun _ => .pure _) fun _ => .bind hconflicts fun _ _ => ?_
  exact .ite (fun _ => .pure _) fun _ => .bind (hlink _) fun _ _ => .pure _

theorem Replica.answering {τ : Type} (services : Services τ) (r : Replica) :
    (r.host services).Answering Fault.Apart where
  proposer e := by
    intro f h
    have hfails : rotation r.count e = .error f := h
    unfold rotation at hfails
    cases hremainder : remainder e.toNat r.count with
    | ok n =>
      rw [hremainder] at hfails
      cases hfails
    | error g =>
      rw [hremainder] at hfails
      cases hfails
      exact meets_remainder Fault.apart_zeroModulus _ _ _ hremainder
  addBlock b w := .bind (w.1.add_meets b) fun _ _ => .pure _
  overflow := Fault.apart_overflow
  unrooted := Fault.apart_unrooted
  zero := Fault.apart_zeroModulus

/-! ### Windows -/

namespace Window

variable {w : Window} {e : Epoch}

theorem index_meets (w : Window) (e : Epoch) : Meets Fault.Apart (w.index e) := by
  unfold index
  split
  · exact .ok _
  · exact .error Fault.apart_zeroModulus

theorem instance_meets (w : Window) (e : Epoch) : Meets Fault.Apart (w.instance? e) :=
  .bind (w.index_meets e) fun _ _ => .pure _

theorem put_meets (w : Window) (inst : Instance) : Meets Fault.Apart (w.put inst) :=
  .bind (w.index_meets _) fun _ _ => .pure _

theorem claim_meets (w : Window) (e : Epoch) : Meets Fault.Apart (w.claim? e) := by
  refine .bind (w.index_meets e) fun _ _ => ?_
  split
  · exact .pure _
  · exact .ite (fun _ => .pure _) fun _ => .ite (fun _ => .pure _) fun _ => .pure _

theorem finishEpoch_meets (w : Window) (e : Epoch) : Meets Fault.Apart (w.finishEpoch e) :=
  .ite (fun _ => .pure _) fun _ => .bind (w.index_meets e) fun _ _ => .pure _

theorem startNext_meets {σ : Type} {p : Host σ} (hp : p.Answering Fault.Apart) (w : Window)
    (valid locked : Option Certificate) (c : Context σ) :
    Meets Fault.Apart (w.startNext p valid locked c) := by
  have hnext : Meets Fault.Apart w.nextEpoch := by
    unfold nextEpoch
    split
    · exact .ok _
    · exact meets_successor Fault.apart_overflow _
  unfold startNext
  refine .ite (fun _ => .pure _) fun _ => .bind hnext fun e _ => .ite (fun _ => .pure _) fun _ => ?_
  refine .bind (instance_meets _ _) fun inst _ => .bind (Instance.start_meets hp _ _ _ _) ?_
  exact fun _ _ => .bind (put_meets _ _) fun _ _ => .pure _

end Window

namespace Turn

variable {τ : Type} {services : Services τ} {heard : Endorsement → Prop} {t : Turn τ} {f : Fault}

/-! ### Starts -/

theorem startEpoch_meets (t : Turn τ) (carried : Carried) :
    Meets Fault.Apart (t.startEpoch services carried) :=
  .bind (Window.startNext_meets (t.replica.answering services) _ _ _ _) fun _ _ => .pure _

theorem startOrDefer_meets (t : Turn τ) (carried : Carried) :
    Meets Fault.Apart (t.startOrDefer services carried) :=
  .ite (fun _ => .ok _) fun _ => t.startEpoch_meets carried

theorem resume_meets (t : Turn τ) : Meets Fault.Apart (t.resume services) := by
  unfold resume
  split
  · exact .ok _
  · exact startOrDefer_meets _ _

/-! ### Settling -/

/-- The oldest outcome is a new decision, and its commit meets a fault. -/
def CommitFails (t : Turn τ) (f : Fault) : Prop := ∃ e b rest w,
  t.outcomes = .decided e b :: rest ∧ t.replica.window.finishEpoch e = .ok (w, true) ∧
    t.replica.chain.commit b = .error f

/-- Where an outcome cannot be settled for a fault of a commit, its commit has met it. -/
theorem commitFails_of_onOutcome {o : Outcome} {rest : List Outcome}
    (outcome : t.outcomes = o :: rest) (hf : f.OfCommit)
    (h : { t with outcomes := rest }.onOutcome services o = .error f) : t.CommitFails f := by
  cases o with
  | finished e valid locked =>
    have hmeets : Meets Fault.Apart ({ t with outcomes := rest }.onOutcome services
        (.finished e valid locked)) := .ite (fun _ => startOrDefer_meets _ _) fun _ => .ok _
    exact absurd hf (hmeets f h)
  | decided e b =>
    simp only [onOutcome, onDecided] at h
    rcases bind_eq_error.mp h with hfinish | ⟨⟨w, isNew⟩, hfinish, h⟩
    · exact absurd hf (Window.finishEpoch_meets _ _ f hfinish)
    cases isNew with
    | false => cases h
    | true =>
      rcases bind_eq_error.mp h with hcommit | ⟨_, -, hresume⟩
      · exact ⟨e, b, rest, w, outcome, hfinish, hcommit⟩
      · exact absurd hf (resume_meets _ f hresume)

theorem settleUpTo_fault {rounds : Nat} (atRest : t.AtRest) (hf : f.OfCommit)
    (h : settleUpTo services rounds t = .error f) :
    ∃ u, Strides services heard t u ∧ u.CommitFails f := by
  induction rounds generalizing t with
  | zero => cases h
  | succ rounds ih =>
    unfold settleUpTo at h
    split at h
    · cases h
    · rename_i o rest outcome
      rcases bind_eq_error.mp h with hnow | ⟨u, hu, hlater⟩
      · exact ⟨t, .refl, commitFails_of_onOutcome outcome hf hnow⟩
      · obtain ⟨hstrides, hrest⟩ := onOutcome_strides heard atRest outcome hu
        obtain ⟨v, hstrides', hfails⟩ := ih hrest hlater
        exact ⟨v, hstrides.trans hstrides', hfails⟩

/-! ### Calls -/

theorem call_fault {inst : Option Instance}
    {act : Instance → Context (Chain × τ) → Except Fault (Instance × Context (Chain × τ))}
    (atRest : t.AtRest) (acts : ∀ i c, Meets Fault.Apart (act i c))
    (stride : ∀ i inst' c w, inst = some i → act i t.context = .ok (inst', c) →
      t.replica.window.put inst' = .ok w → Stride services heard t (t.absorb services w c))
    (hf : f.OfCommit) (h : (do (← t.call services inst act).settle services) = .error f) :
    ∃ u, Strides services heard t u ∧ u.CommitFails f := by
  rcases bind_eq_error.mp h with hcall | ⟨u, hu, hsettle⟩
  · have hmeets : Meets Fault.Apart (t.call services inst act) := by
      unfold call
      split
      · exact .ok _
      · exact .bind (acts _ _) fun _ _ => .bind (Window.put_meets _ _) fun _ _ => .pure _
    exact absurd hf (hmeets f hcall)
  · obtain ⟨hstrides, hrest⟩ := called_strides heard atRest stride hu
    obtain ⟨v, hstrides', hfails⟩ := settleUpTo_fault hrest hf hsettle
    exact ⟨v, hstrides.trans hstrides', hfails⟩

/-- **A call that meets a fault of a commit meets it at a point of its path, in the commit of a new
decision.** -/
theorem take_fault {input : Input} (atRest : t.AtRest) (admitted : input.CarriesOnly heard)
    (hf : f.OfCommit) (h : t.take services input = .error f) :
    ∃ u, Strides services heard { t with outcomes := [] } u ∧ u.CommitFails f := by
  cases input with
  | bootstrap =>
    unfold take bootstrap at h
    simp only [pure, Except.pure] at h
    split at h
    · cases h
    rename_i hnew
    rcases bind_eq_error.mp h with hstart | ⟨u, hu, hsettle⟩
    · exact absurd hf (startEpoch_meets _ _ f hstart)
    · obtain ⟨hstrides, hrest⟩ := firstEpoch_strides heard atRest (by simpa using hnew) hu
      obtain ⟨v, hstrides', hfails⟩ := settleUpTo_fault hrest hf hsettle
      exact ⟨v, hstrides.trans hstrides', hfails⟩
  | message m =>
    unfold take handleMessage at h
    simp only at h
    split at h
    · cases h
    · rcases bind_eq_error.mp h with hclaim | ⟨inst, claimed, h⟩
      · exact absurd hf (Window.claim_meets _ _ f hclaim)
      · exact call_fault (t := { t with outcomes := [] }) atRest
          (fun i c => Instance.receive_meets (t.replica.answering services) m i c)
          (fun i inst' c w hi done kept => .receive rfl (hi ▸ claimed) admitted done kept) hf h
  | timeout timeout =>
    unfold take handleTimeout at h
    rcases bind_eq_error.mp h with hfind | ⟨inst, found, h⟩
    · exact absurd hf (Window.instance_meets _ _ f hfind)
    · exact call_fault (t := { t with outcomes := [] }) atRest
        (fun i c => Instance.expire_meets (t.replica.answering services) timeout i c)
        (fun i inst' c w hi done kept => .expire rfl (hi ▸ found) done kept) hf h

end Turn

end EpochConsensus
