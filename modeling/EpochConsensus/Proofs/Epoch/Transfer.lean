import EpochConsensus.Epoch.Script
import EpochConsensus.Proofs.Epoch.Exposure
import EpochConsensus.Proofs.Epoch.Rounds

/-! # Evidence convinces others

The evidence that one process passes on exposes the proposer at every other process that has not
decided: whatever votes that has counted before, and in whatever order the evidence comes in, it
leaves the epoch and never decides in it (`Course.evidence_transfers`).

What is passed on incriminates the proposer by itself (`Incriminates`): it holds votes of the
proposer for two blocks.  Each of them is counted as it comes in, unless the proposer's vote for the
block has been counted before (`Machine.Heeds`).
-/
namespace EpochConsensus

/-! ### Evidence -/

/-- The vote that is passed on as evidence. -/
def Effect.evidence? : Effect → Option Vote
  | forward (.vote v) => if v.cosignature.isNone then some v else none
  | _ => none

/-- The evidence that a call has passed on so far. -/
def Context.evidence {σ : Type} (c : Context σ) : List Vote :=
  c.effects.toList.filterMap Effect.evidence?

/-- Votes of one process, without second signatures, for more than one block of an epoch. -/
structure Incriminates (q : ProcessId) (e : Epoch) (vs : List Vote) : Prop where
  own : ∀ v ∈ vs, v.epoch = e ∧ v.sender = q ∧ v.cosignature = none
  two : ∃ v ∈ vs, ∃ w ∈ vs, v.statement.subject ≠ w.statement.subject

/-- The order of the votes makes no difference. -/
theorem Incriminates.perm {q : ProcessId} {e : Epoch} {vs us : List Vote}
    (h : Incriminates q e vs) (order : us.Perm vs) : Incriminates q e us := by
  obtain ⟨v, hv, w, hw, hne⟩ := h.two
  exact ⟨fun u hu => h.own u (order.mem_iff.mp hu),
    v, order.mem_iff.mpr hv, w, order.mem_iff.mpr hw, hne⟩

theorem Effect.evidence?_eq_none {e : Effect} (h : e.isEvidence = false) : e.evidence? = none := by
  cases e with
  | forward m =>
    cases m with
    | vote v => simp [evidence?, show v.cosignature.isNone = false from h]
    | _ => rfl
  | _ => rfl

/-- A process that has signed a certificate of votes has a ballot there. -/
theorem Certificate.ballot?_eq {c : Certificate} {e : Epoch} {height : Height} {id : BlockId}
    {process : ProcessId} (statement : c.statement = ⟨e, .block height id⟩)
    (signed : c.signedBy process = true) :
    ∃ signature, c.ballot? process =
      some (.vote ⟨e, height, id, process, signature, process, none⟩) := by
  obtain ⟨signature, hsignature⟩ : ∃ signature, c.signature? process = some signature :=
    Option.isSome_iff_exists.mp signed
  exact ⟨signature, by
    simp [ballot?, hsignature, ballot, statement, epoch]⟩

/-- The votes among the evidence of an honest process. -/
theorem Machine.mem_evidence {m : Machine} {q : ProcessId} (honest : m.policy.isHonest = true)
    {v : Vote} :
    v ∈ ((m.evidence q).filterMap fun b => (Effect.forward b.toMessage).evidence?) ↔
      ∃ c ∈ m.votes.toList, c.signedBy q = true ∧ c.ballot? q = some (.vote v) ∧
        v.cosignature = none := by
  unfold evidence Votes.signedBy
  rw [if_pos honest, List.mem_filterMap]
  simp only [List.mem_filterMap, List.mem_filter]
  constructor
  · rintro ⟨b, ⟨c, ⟨hc, hsigned⟩, hballot⟩, hvote⟩
    cases b with
    | silence b => cases hvote
    | vote u =>
      simp only [Ballot.toMessage, Effect.evidence?, Option.ite_none_right_eq_some,
        Option.isNone_iff_eq_none, Option.some.injEq] at hvote
      obtain ⟨hplain, rfl⟩ := hvote
      exact ⟨c, hc, hsigned, hballot, hplain⟩
  · rintro ⟨c, hc, hsigned, hballot, hplain⟩
    exact ⟨.vote v, ⟨c, ⟨hc, hsigned⟩, hballot⟩, by
      simp [Ballot.toMessage, Effect.evidence?, hplain]⟩

/-- The evidence of an honest process incriminates a proposer that has signed twice. -/
theorem Machine.incriminates {m : Machine} {e : Epoch} {q : ProcessId}
    (honest : m.policy.isHonest = true)
    (blocks : ∀ c ∈ m.votes.toList, ∃ height id, c.statement = ⟨e, .block height id⟩)
    (twice : m.votes.SignedTwice q) :
    Incriminates q e
      ((m.evidence q).filterMap fun b => (Effect.forward b.toMessage).evidence?) := by
  have hballot : ∀ c ∈ m.votes.toList, c.signedBy q = true → ∃ v,
      c.ballot? q = some (.vote v) ∧ (v.epoch = e ∧ v.sender = q ∧ v.cosignature = none) ∧
        v.statement = c.statement := by
    intro c hc hsigned
    obtain ⟨height, id, hstatement⟩ := blocks c hc
    obtain ⟨signature, heq⟩ := Certificate.ballot?_eq hstatement hsigned
    exact ⟨_, heq, ⟨rfl, rfl, rfl⟩, hstatement.symm⟩
  constructor
  · intro v hv
    obtain ⟨c, hc, hsigned, heq, -⟩ := (mem_evidence honest).mp hv
    obtain ⟨u, heq', hown, -⟩ := hballot c hc hsigned
    rw [heq] at heq'
    cases heq'
    exact hown
  · obtain ⟨c, hc, d, hd, hne, hsc, hsd⟩ := twice
    obtain ⟨v, hv, ⟨-, -, hplainV⟩, hstatementV⟩ := hballot c hc hsc
    obtain ⟨u, hu, ⟨-, -, hplainU⟩, hstatementU⟩ := hballot d hd hsd
    refine ⟨v, (mem_evidence honest).mpr ⟨c, hc, hsc, hv, hplainV⟩,
      u, (mem_evidence honest).mpr ⟨d, hd, hsd, hu, hplainU⟩, ?_⟩
    rwa [hstatementV, hstatementU]

/-! ### What a course has shown -/

namespace Course

variable {σ : Type} {p : Host σ} {q : ProcessId} {e : Epoch} {c c' : Course σ}

/-- The evidence on a log. -/
def evidence (log : List (Entry σ)) : List Vote :=
  log.filterMap fun x => x.effect?.bind Effect.evidence?

theorem evidence_did (xs : List (Moment σ)) :
    evidence (xs.map .did) = xs.filterMap fun x => x.effect.evidence? := by
  unfold evidence
  rw [List.filterMap_map]
  rfl

theorem evidence_plain {xs : List (Moment σ)} (plain : ∀ x ∈ xs, x.effect.IsPlain) :
    evidence (xs.map .did) = [] := by
  rw [evidence_did, List.filterMap_eq_nil_iff]
  exact fun x hx => Effect.evidence?_eq_none (plain x hx).evidence

/-- **A change shows no evidence, or it exposes the proposer and shows what incriminates it.** -/
theorem Change.evidence (turn : p.proposer e = .ok q) (change : Change p c c')
    (h : Watched q e c) : ∃ new, c'.log = c.log ++ new ∧ (Course.evidence new = [] ∨
      c.machine.equivocation = false ∧ c'.machine.equivocation = true ∧
        Incriminates q e (Course.evidence new)) := by
  cases change with
  | call | lock => exact ⟨_, rfl, .inl rfl⟩
  | calm alike calm => exact ⟨_, rfl, .inl (evidence_plain fun x hx => (calm x hx).plain)⟩
  | opens | count | decide | blame => exact ⟨[], (List.append_nil _).symm, .inl rfl⟩
  | @expose proposer v counting fresh two w =>
    have hproposer : proposer = q := by
      have hturn := counting.turn
      rw [h.epoch, turn] at hturn
      exact (Except.ok.inj hturn).symm
    subst hproposer
    obtain ⟨hsorted, hblocks⟩ := h.sorted_count counting
    have htwice := (Votes.signedTwice_iff hsorted).mpr two
    refine ⟨_, rfl, ?_⟩
    rw [show Course.evidence _ = _ from List.filterMap_map]
    cases honest : c.machine.policy.isHonest with
    | true => exact .inr ⟨fresh, rfl, Machine.incriminates honest hblocks htwice⟩
    | false =>
      have hnone : (c.machine.count proposer v).evidence proposer = [] :=
        if_neg (by simp [Machine.count, honest])
      exact .inl (by rw [hnone]; rfl)
  | commit committing ends =>
    subst ends
    exact ⟨_, rfl, .inl rfl⟩
  | resign resigns plain => exact ⟨_, rfl, .inl (evidence_plain fun x hx => (plain x hx).1)⟩

theorem Changes.evidence (turn : p.proposer e = .ok q) (changes : Changes p c c')
    (h : Watched q e c) : ∃ new, c'.log = c.log ++ new ∧ (Course.evidence new = [] ∨
      c'.machine.equivocation = true ∧ Incriminates q e (Course.evidence new)) := by
  induction changes with
  | refl => exact ⟨[], (List.append_nil _).symm, .inl rfl⟩
  | @tail c₁ c₂ changes change ih =>
    obtain ⟨new, hlog, hnew⟩ := ih
    obtain ⟨last, hlog', hlast⟩ := change.evidence turn (Changes.watched turn changes h)
    refine ⟨new ++ last, by rw [hlog', hlog, List.append_assoc], ?_⟩
    have happend : Course.evidence (new ++ last) = Course.evidence new ++ Course.evidence last :=
      List.filterMap_append
    rw [happend]
    rcases hlast with hnone | ⟨hfresh, hexposed, hshown⟩
    · rw [hnone, List.append_nil]
      exact hnew.imp_right fun ⟨hexposed, hshown⟩ => ⟨change.exposed hexposed, hshown⟩
    · rcases hnew with hnone | ⟨hexposed', -⟩
      · rw [hnone]
        exact .inr ⟨hexposed, hshown⟩
      · rw [hfresh] at hexposed'
        cases hexposed'

/-- **The evidence that a call passes on incriminates the proposer.** -/
theorem incriminates_of_call (turn : p.proposer e = .ok q) (h : Watched q e c)
    (hs : p.Sound (fun _ => True) c.machine) {call : Call} {w : σ} {s : Step σ}
    (called : p.call call ⟨.start w, c.machine⟩ = .ok s) (shown : s.evidence ≠ []) :
    Incriminates q e s.evidence := by
  obtain ⟨new, hlog, hnew⟩ := (take_changes hs (take_eq_ok.mpr ⟨s, called, rfl⟩)).1.evidence turn h
  have hcall : new = .called call c.machine :: s.moments.toList.map .did :=
    List.append_cancel_left (hlog.symm.trans (List.append_assoc _ _ _))
  have hevidence : Course.evidence new = s.evidence := by
    rw [hcall]
    show Course.evidence (s.moments.toList.map .did) = _
    rw [evidence_did]
    simp [Context.evidence, Context.effects, List.filterMap_map]
  rw [hevidence] at hnew
  rcases hnew with hnone | ⟨-, hshown⟩
  · exact absurd hnone shown
  · exact hshown

end Course

/-! ### Votes of the proposer -/

/-- The proposer is exposed; or the epoch may decide still, and has counted the proposer's votes for
the blocks of these votes. -/
def Machine.Heeds (m : Machine) (q : ProcessId) (done : List Vote) : Prop :=
  m.equivocation = true ∨ (m.phase = .ready ∨ m.phase = .locked) ∧
    ∀ v ∈ done, (m.votes.get m.epoch v.height v.blockId).signedBy q = true

namespace Host

variable {σ : Type} {p : Host σ} {heard : Endorsement → Prop} {q : ProcessId} {s s' : Step σ}
  {done : List Vote} {v : Vote}

/-- **A vote of the proposer is heeded.** -/
theorem heeds_onVote (hs : p.Sound heard s.machine) (sorted : s.machine.votes.Sorted)
    (turn : p.proposer s.machine.epoch = .ok q) (patient : s.machine.policy.fastPath = false)
    (phase : s.machine.phase = .ready ∨ s.machine.phase = .locked)
    (signed : ∀ v ∈ done,
      (s.machine.votes.get s.machine.epoch v.height v.blockId).signedBy q = true)
    (own : v.epoch = s.machine.epoch ∧ v.sender = q ∧ v.cosignature = none)
    (received : p.onVote v s = .ok s') : s'.machine.Heeds q (done ++ [v]) := by
  obtain ⟨current, rfl, plain⟩ := own
  have hcommit : s.machine.phase ≠ .commit := by rcases phase with hp | hp <;> simp [hp]
  obtain ⟨-, hkeeps, hsender⟩ := signers_onVote hs sorted turn hcommit current plain received
  have hsigned : ∀ u ∈ done ++ [v],
      (s'.machine.votes.get s'.machine.epoch u.height u.blockId).signedBy v.sender = true :=
    List.forall_mem_append.mpr ⟨fun u hu => hkeeps _ _ _ (signed u hu),
      List.forall_mem_singleton.mpr hsender⟩
  rw [onVote_plain turn hcommit current plain] at received
  split at received
  · cases received
    exact .inr ⟨phase, hsigned⟩
  · cases received
    exact (onCounted_patient patient phase _ _ _).imp_right fun hphase => ⟨hphase, hsigned⟩

/-- Every vote can be received. -/
theorem exists_receive_vote (turn : p.proposer s.machine.epoch = .ok q) (v : Vote) :
    ∃ s', p.receive (.vote v) s = .ok s' := by
  unfold receive
  split
  · exact ⟨_, rfl⟩
  · exact exists_whileActive_onBallot turn (.vote v)

end Host

/-! ### Deliveries -/

namespace Course

variable {σ τ : Type} {q : ProcessId} {e : Epoch}

section
variable {p : Host σ} {c : Course σ} {done : List Vote} {v : Vote}

/-- **Each piece of evidence is received, and heeded.** -/
theorem take_heeds (turn : p.proposer e = .ok q) (h : Watched q e c)
    (hs : p.Sound (fun _ => True) c.machine) (loud : c.machine.policy.isSilent = false)
    (patient : c.machine.policy.fastPath = false) (heeds : c.machine.Heeds q done)
    (own : v.epoch = e ∧ v.sender = q ∧ v.cosignature = none) (w : σ) :
    ∃ c', c.take p (.receive (.vote v)) w = .ok c' ∧ c'.machine.Heeds q (done ++ [v]) := by
  obtain rfl := h.epoch
  obtain ⟨s, received⟩ := Host.exists_receive_vote (s := ⟨.start w, c.machine⟩) turn v
  have htake : c.take p (.receive (.vote v)) w = _ := take_eq_ok.mpr ⟨s, received, rfl⟩
  refine ⟨_, htake, ?_⟩
  rcases heeds with hexposed | ⟨hphase, hsigned⟩
  · exact .inl ((take_changes hs htake).1.exposed hexposed)
  have hstarted : c.machine.phase ≠ .inactive := by rcases hphase with hp | hp <;> simp [hp]
  have hactive : c.machine.phase ≠ .finished := by rcases hphase with hp | hp <;> simp [hp]
  unfold Host.receive at received
  rw [if_neg hstarted, Host.whileActive_eq hactive loud] at received
  -- what is requested again makes no difference
  have hrunning : p.Running (fun _ => True) (p.retryRefused ⟨.start w, c.machine⟩) :=
    Host.running_retryRefused ⟨hstarted, hs⟩
  have halike : c.machine.Alike (p.retryRefused ⟨.start w, c.machine⟩).machine :=
    (Host.retryRefused_calm ⟨.start w, c.machine⟩).alike
  refine Host.heeds_onVote hrunning.sound (halike.votes ▸ h.sorted) (halike.epoch ▸ turn)
    (halike.policy ▸ patient) (halike.phase ▸ hphase) ?_ (halike.epoch ▸ own) received
  rw [halike.votes, halike.epoch]
  exact hsigned

/-- Whoever has heeded what incriminates the proposer has exposed it. -/
theorem exposed_of_heeds (h : Watched q e c) (heeds : c.machine.Heeds q done)
    (incriminates : Incriminates q e done) : c.machine.equivocation = true := by
  rcases heeds with hexposed | ⟨-, hsigned⟩
  · exact hexposed
  · obtain ⟨v, hv, u, hu, hne⟩ := incriminates.two
    obtain ⟨hmemV, hsubjectV⟩ := Votes.mem_of_signedBy_get (hsigned v hv)
    obtain ⟨hmemU, hsubjectU⟩ := Votes.mem_of_signedBy_get (hsigned u hu)
    refine h.exact.mpr ⟨_, hmemV, _, hmemU, ?_, hsigned v hv, hsigned u hu⟩
    rwa [hsubjectV, hsubjectU]

/-- Votes that come in one after the other, each with the host in a state of its own. -/
def deliver (deliveries : List (Vote × σ)) : List (Call × σ) :=
  deliveries.map fun x => (.receive (.vote x.1), x.2)

/-- **So is all of it**, by an epoch that may decide still. -/
theorem run_heeds (turn : p.proposer e = .ok q) (h : Watched q e c)
    (hs : p.Sound (fun _ => True) c.machine) (loud : c.machine.policy.isSilent = false)
    (patient : c.machine.policy.fastPath = false)
    (phase : c.machine.phase = .ready ∨ c.machine.phase = .locked)
    {deliveries : List (Vote × σ)}
    (own : ∀ x ∈ deliveries, x.1.epoch = e ∧ x.1.sender = q ∧ x.1.cosignature = none) :
    ∃ c', c.run p (deliver deliveries) = .ok c' ∧ Changes p c c' ∧
      p.Sound (fun _ => True) c'.machine ∧ c'.machine.Heeds q (deliveries.map Prod.fst) := by
  unfold run deliver
  rw [List.foldlM_map]
  -- by induction on the deliveries: what has come in was heeded
  refine foldlM_reaches (motive := fun done d => Changes p c d ∧
    p.Sound (fun _ => True) d.machine ∧ d.machine.Heeds q (done.map Prod.fst)) ?_
      ⟨.refl, hs, .inr ⟨phase, by simp⟩⟩
  rintro done x d hx ⟨hpath, hd, hheeds⟩
  obtain ⟨d', htake, hheeds'⟩ := take_heeds turn (hpath.watched turn h) hd
    (hpath.policy ▸ loud) (hpath.policy ▸ patient) hheeds (own x hx) x.2
  obtain ⟨hchanges, hd'⟩ := take_changes hd htake
  exact ⟨d', htake, hpath.trans hchanges, hd', by simpa using hheeds'⟩

end

variable {p : Host σ} {p' : Host τ} {a : Course σ} {b : Course τ}

/-- **Evidence convinces others.**  The evidence that an epoch passes on in a call, delivered in any
order to an honest epoch that is ready or locked and waits for equivocations, makes that leave the
epoch or end it without a decision; and none is on its log at any point `c₂` of what follows, in the
middle of a call as well. -/
theorem evidence_transfers {policy policy' : Policy} {limit limit' : Nat}
    {calls : List (Call × σ)} {calls' : List (Call × τ)} (turn : p.proposer e = .ok q)
    (turn' : p'.proposer e = .ok q) (ran : (create e policy limit).run p calls = .ok a)
    {call : Call} {w : σ} {s : Step σ} (called : p.call call ⟨.start w, a.machine⟩ = .ok s)
    (shown : s.evidence ≠ []) (honest : policy'.isHonest = true)
    (patient : policy'.fastPath = false)
    (ran' : (create e policy' limit').run p' calls' = .ok b)
    (phase : b.machine.phase = .ready ∨ b.machine.phase = .locked)
    {deliveries : List (Vote × τ)} (order : (deliveries.map Prod.fst).Perm s.evidence) :
    ∃ c, b.run p' (deliver deliveries) = .ok c ∧
      (c.machine.phase = .epochChange ∨ c.machine.phase = .finished) ∧
      c.machine.decision = none ∧ Undecided c.log ∧
      ∀ more c₁ c₂, c.run p' more = .ok c₁ → Changes p' c₁ c₂ →
        c₂.machine.decision = none ∧ Undecided c₂.log := by
  obtain ⟨hchanges, hsound⟩ := run_changes (sound_create e policy limit) ran
  have hwatched : Watched q e a := hchanges.watched turn (watched_create q e policy limit)
  have hincriminates : Incriminates q e (deliveries.map Prod.fst) :=
    (incriminates_of_call turn hwatched hsound called shown).perm order
  obtain ⟨hchanges', hsound'⟩ := run_changes (sound_create e policy' limit') ran'
  have hwatched' : Watched q e b := hchanges'.watched turn' (watched_create q e policy' limit')
  have hpolicy : b.machine.policy = policy' := hchanges'.policy
  obtain ⟨c, received, hrest, hsound'', hheeds⟩ := run_heeds turn' hwatched' hsound'
    (hpolicy ▸ Policy.isSilent_eq_false honest) (hpolicy ▸ patient) phase
    fun x hx => hincriminates.own x.1 (List.mem_map_of_mem hx)
  have hwatched'' : Watched q e c := hrest.watched turn' hwatched'
  have hexposed := exposed_of_heeds hwatched'' hheeds hincriminates
  obtain ⟨hundecided, hlog⟩ := hwatched''.undecided_of_exposed hexposed
  refine ⟨c, received, hwatched''.left hexposed, hundecided, hlog, ?_⟩
  intro more c₁ c₂ ran₁ point
  have hpath : Changes p' c c₂ := (run_changes hsound'' ran₁).1.trans point
  exact (Changes.watched turn' hpath hwatched'').undecided_of_exposed (hpath.exposed hexposed)

/-- Process 2 of three has received the vote of process 1 for the second block. -/
def otherCalls : List (Call × Script) :=
  [.start none none, .receive (.vote { doubleVote 2 with sender := 1 })].map
    fun call => (call, ⟨[], none, true, true, true⟩)

/-- In this run the votes that process 1 passes on reach process 2 in the other order: the first one
locks the block that process 1 has voted for, and the second one ends the epoch. -/
theorem evidence_transfers_double :
    let p := Script.host 1 3 none fun _ => 0
    let p' := Script.host 2 3 none fun _ => 0
    let w : Script := ⟨[], none, true, true, true⟩
    let deliveries := [(doubleVote 2, w), (doubleVote 1, w)]
    ∃ a s b c, (create 0 ⟨.honest, false⟩ 1).run p (doubleCalls.take 2) = .ok a ∧
      p.call (.receive (.vote (doubleVote 2))) ⟨.start w, a.machine⟩ = .ok s ∧
      s.evidence = [doubleVote 1, doubleVote 2] ∧
      (create 0 ⟨.honest, false⟩ 1).run p' otherCalls = .ok b ∧ b.machine.phase = .ready ∧
      b.run p' (deliver deliveries) = .ok c ∧
      (c.machine.phase = .epochChange ∨ c.machine.phase = .finished) ∧ Undecided c.log := by
  intro p p' w deliveries
  obtain ⟨⟨a, s⟩, hboth, hevidence⟩ : ∃ x : Course Script × Step Script, (do
      let a ← (create 0 ⟨.honest, false⟩ 1).run p (doubleCalls.take 2)
      let s ← p.call (.receive (.vote (doubleVote 2))) ⟨.start w, a.machine⟩
      return (a, s)) = .ok x ∧ x.2.evidence = [doubleVote 1, doubleVote 2] :=
    exists_of_toOption (by decide +kernel)
  simp only [pure, Except.pure] at hboth
  obtain ⟨a, ran, hboth⟩ := bind_eq_ok.mp hboth
  obtain ⟨s, called, hboth⟩ := bind_eq_ok.mp hboth
  cases hboth
  obtain ⟨b, ran', phase⟩ : ∃ b, (create 0 ⟨.honest, false⟩ 1).run p' otherCalls = .ok b ∧
      b.machine.phase = .ready := exists_of_toOption (by decide +kernel)
  have hevidence : s.evidence = [doubleVote 1, doubleVote 2] := hevidence
  have order : (deliveries.map Prod.fst).Perm s.evidence := hevidence ▸ .swap _ _ _
  obtain ⟨c, received, left, -, undecided, -⟩ := evidence_transfers (q := 0) (by decide +kernel)
    (by decide +kernel) ran called (by simp [hevidence]) rfl rfl ran' (.inl phase) order
  exact ⟨a, s, b, c, ran, called, hevidence, ran', phase, received, left, undecided⟩

end Course

end EpochConsensus
