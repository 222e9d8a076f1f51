import EpochConsensus.Proofs.Epoch.Exposure

/-! # Decisions

What stands behind a decision of an honest epoch (`Course.run_decides`): a proposal that it took for
valid, a majority of votes on which it locked the block and finished, the end of the wait for
evidence or the votes of all, and until then no sign that the proposer had failed.

The log of an epoch shows how it came to the phase that it is in.  `Course.Deciding` says so for
every phase up to the commit; an epoch in another phase never decides.
-/
namespace EpochConsensus.Course

variable {σ : Type} (p : Host σ) (q : ProcessId) (e : Epoch)

/-! ### How an epoch comes to decide -/

/-- Nothing is known against the proposer: it has signed at most one block, and no majority blames
it. -/
structure Clean (m : Machine) : Prop where
  single : (m.votes.signedBy q).length ≤ 1
  unblamed : m.blame.hasQuorum p.count = false

/-- The log of an epoch that was ready, locked a block with the certificate `d` and finished, and
has been on its lock while `since` was put on the log. -/
structure LockedWith (d : Certificate) (since log : List (Entry σ)) : Prop where
  split : ∃ before w l, log = before ++ .did ⟨.broadcast (.quitEpoch d), w, some l⟩ ::
      .did ⟨.finish e (some d) (some d), w, some l⟩ :: since ∧ l.phase = .locked ∧
    ∀ x ∈ before, ∀ m ∈ x.machine?, m.phase = .inactive ∨ m.phase = .ready
  block : ∃ height id, d.statement = ⟨e, .block height id⟩
  quorum : p.count / 2 < d.count
  stays : ∀ x ∈ since, ∀ m ∈ x.machine?, m.phase = .locked ∨ m.phase = .commit

/-- What made an epoch decide while it was on its lock: the votes of all, or the end of the wait. -/
inductive Settled (m : Machine) (since : List (Entry σ)) : Prop
  | fast (policy : m.policy.fastPath = true) {d : Certificate} (counted : d ∈ m.votes.toList)
      (all : d.count = p.count)
  | waited {t : Timeout} {m' : Machine} (delivered : .called (.expire t) m' ∈ since)
      (kind : t.kind = .equivocation) (current : t.epoch = e) (phase : m'.phase = .locked)

/-- The log of an honest epoch, by the phase that the epoch is in. -/
structure Deciding (c : Course σ) : Prop where
  early : c.machine.phase = .inactive ∨ c.machine.phase = .ready →
    ∀ x ∈ c.log, ∀ m ∈ x.machine?, m.phase = .inactive ∨ m.phase = .ready
  held : c.machine.phase = .locked ∨ c.machine.phase = .commit → ∃ d since,
    c.machine.locked = some d ∧ LockedWith p e d since c.log ∧
      (c.machine.phase = .commit → ∃ id, c.machine.decision = some (d.height, id) ∧
        d.blockId? = some id ∧ Settled p e c.machine since)
  clean : c.machine.phase ≠ .epochChange → c.machine.phase ≠ .finished →
    c.machine.blame.hasQuorum p.count = false ∧ ∀ x ∈ c.log, ∀ m ∈ x.machine?, Clean p q m

variable {p q e} {c c' : Course σ}

/-! ### What every change keeps -/

/-- An epoch that may still decide is clean itself. -/
theorem Deciding.clean_machine (h : Deciding p q e c) (watched : Watched q e c)
    (stays : c.machine.phase ≠ .epochChange) (active : c.machine.phase ≠ .finished) :
    Clean p q c.machine := by
  refine ⟨?_, (h.clean stays active).1⟩
  have hnot : ¬ c.machine.votes.SignedTwice q := by
    rw [← watched.exact, watched.fresh stays active]
    decide
  rw [Votes.signedTwice_iff watched.sorted] at hnot
  omega

theorem Clean.alike {m m' : Machine} (h : Clean p q m) (alike : m.Alike m') : Clean p q m' :=
  ⟨alike.votes ▸ h.single, alike.blame ▸ h.unblamed⟩

theorem LockedWith.append {d : Certificate} {since log new : List (Entry σ)}
    (h : LockedWith p e d since log)
    (stays : ∀ x ∈ new, ∀ m ∈ x.machine?, m.phase = .locked ∨ m.phase = .commit) :
    LockedWith p e d (since ++ new) (log ++ new) := by
  obtain ⟨before, w, l, rfl, hl, hbefore⟩ := h.split
  refine { h with split := ⟨before, w, l, by simp, hl, hbefore⟩, stays := ?_ }
  exact fun x hx => (List.mem_append.mp hx).elim (h.stays x) (stays x)

theorem Settled.mono {m m' : Machine} {since since' : List (Entry σ)} (h : Settled p e m since)
    (policy : m'.policy = m.policy) (votes : m'.votes = m.votes) (later : since ⊆ since') :
    Settled p e m' since' := by
  cases h with
  | fast fast counted all => exact .fast (policy ▸ fast) (votes ▸ counted) all
  | waited delivered kind current phase => exact .waited (later delivered) kind current phase

/-- A change that leaves the epoch alike, and what it puts on the log. -/
theorem Deciding.grow (h : Deciding p q e c) (watched : Watched q e c)
    (honest : c.machine.policy.isHonest = true) {m : Machine} (alike : c.machine.Alike m)
    {new : List (Entry σ)} (snapshots : ∀ x ∈ new, ∀ m' ∈ x.machine?, c.machine.Alike m') :
    Deciding p q e ⟨m, c.log ++ new⟩ where
  early := by
    show m.phase = _ ∨ m.phase = _ → _
    rw [alike.phase]
    intro hphase x hx m' hm'
    rcases List.mem_append.mp hx with hx | hx
    · exact h.early hphase x hx m' hm'
    · rw [(snapshots x hx m' hm').phase]
      exact hphase
  held := by
    show m.phase = _ ∨ m.phase = _ → _
    rw [alike.phase]
    intro hphase
    obtain ⟨d, since, hlocked, hlog, hcommit⟩ := h.held hphase
    refine ⟨d, since ++ new, (alike.locked honest).trans hlocked, hlog.append ?_, ?_⟩
    · intro x hx m' hm'
      rw [(snapshots x hx m' hm').phase]
      exact hphase
    · intro hp
      obtain ⟨id, hdecision, hid, hsettled⟩ := hcommit hp
      exact ⟨id, alike.decision.trans hdecision, hid,
        hsettled.mono alike.policy alike.votes (List.subset_append_left _ _)⟩
  clean := by
    show m.phase ≠ _ → m.phase ≠ _ → _
    rw [alike.phase]
    intro stays active
    have hclean := h.clean_machine watched stays active
    refine ⟨(hclean.alike alike).unblamed, ?_⟩
    intro x hx m' hm'
    rcases List.mem_append.mp hx with hx | hx
    · exact (h.clean stays active).2 x hx m' hm'
    · exact hclean.alike (snapshots x hx m' hm')

/-- An epoch that is left or has ended has nothing more to show. -/
theorem deciding_of_left (phase : c.machine.phase = .epochChange ∨ c.machine.phase = .finished) :
    Deciding p q e c := by
  constructor <;> rcases phase with hp | hp <;> simp [hp]

/-- The epoch locks a block. -/
theorem Deciding.lock (h : Deciding p q e c) (watched : Watched q e c) {d : Certificate}
    {m : Machine} (phase : c.machine.phase = .ready) (counted : d ∈ c.machine.votes.toList)
    (quorum : d.hasQuorum p.count = true)
    (locks : m = { c.machine with phase := .locked, valid := some d, locked := some d }) (w : σ) :
    Deciding p q e ⟨m, c.log ++ [.did ⟨.broadcast (.quitEpoch d), w, some m⟩,
      .did ⟨.finish m.epoch (some d) (some d), w, some m⟩]⟩ := by
  have hclean := h.clean_machine watched (by simp [phase]) (by simp [phase])
  have hepoch : m.epoch = e := by rw [locks]; exact watched.epoch
  have hphase : m.phase = .locked := by rw [locks]
  have hm : Clean p q m := by rw [locks]; exact ⟨hclean.single, hclean.unblamed⟩
  refine ⟨by simp [hphase], ?_, ?_⟩
  · intro _
    refine ⟨d, [], by rw [locks], ⟨⟨c.log, w, m, by rw [hepoch], hphase, h.early (.inr phase)⟩,
      watched.blocks d counted, by simpa [Certificate.hasQuorum] using quorum, by simp⟩, ?_⟩
    simp [hphase]
  · intro _ _
    refine ⟨hm.unblamed, ?_⟩
    intro x hx m' hm'
    rcases List.mem_append.mp hx with hx | hx
    · exact (h.clean (by simp [phase]) (by simp [phase])).2 x hx m' hm'
    · -- both entries show the epoch as it is now
      obtain rfl : m = m' := by
        rcases List.mem_cons.mp hx with rfl | hx
        · exact Option.some.inj hm'
        · obtain rfl := List.mem_singleton.mp hx
          exact Option.some.inj hm'
      exact hm

/-- The epoch decides on its lock. -/
theorem Deciding.decide (h : Deciding p q e c) (watched : Watched q e c) {d : Certificate}
    {id : BlockId} (phase : c.machine.phase = .locked) (locked : c.machine.locked = some d)
    (names : d.blockId? = some id) (resolved : c.Resolved p) :
    Deciding p q e
      ⟨{ c.machine with phase := .commit, decision := some (d.height, id) }, c.log⟩ := by
  obtain ⟨d', since, hlocked, hlog, -⟩ := h.held (.inl phase)
  obtain rfl : d' = d := Option.some.inj (hlocked.symm.trans locked)
  have hclean := h.clean (by simp [phase]) (by simp [phase])
  refine ⟨by simp, fun _ => ⟨d', since, locked, hlog, fun _ => ⟨id, rfl, names, ?_⟩⟩,
    fun _ _ => hclean⟩
  cases resolved with
  | fast policy counted all => exact .fast policy counted all
  | @waited t m last kind current waiting =>
    refine .waited ?_ kind (current.trans watched.epoch) waiting
    -- the timeout is the last thing on the log, and so came after the lock
    obtain ⟨before, w, l, hsplit, -, -⟩ := hlog.split
    rw [hsplit] at last
    cases since with
    | nil => simp at last
    | cons x since =>
      have hlast : (x :: since).getLast? = some (.called (.expire t) m) := by
        simpa [List.getLast?_append, List.getLast?_cons_cons] using last
      exact List.mem_of_getLast? hlast

/-- **Every change of an honest epoch keeps this.** -/
theorem Change.deciding (change : Change p c c') (watched : Watched q e c)
    (honest : c.machine.policy.isHonest = true) (h : Deciding p q e c) : Deciding p q e c' := by
  cases change with
  | call call =>
    refine h.grow watched honest (.refl _) ?_
    simp [Entry.machine?, Machine.Alike.refl]
  | calm alike calm =>
    exact h.grow watched honest alike (List.forall_mem_map.mpr fun x hx => (calm x hx).alike)
  | opens phase valid locked =>
    refine ⟨fun _ => h.early (.inl phase), by simp [Machine.opened], fun _ _ => ?_⟩
    exact h.clean (by simp [phase]) (by simp [phase])
  | count counting known =>
    refine ⟨h.early, ?_, h.clean⟩
    intro hphase
    obtain ⟨d, since, hlocked, hlog, -⟩ := h.held hphase
    refine ⟨d, since, hlocked, hlog, ?_⟩
    -- votes are not counted any more once the epoch has decided
    intro hcommit
    have hcommit : c.machine.phase = .commit := hcommit
    rcases counting.phase with hp | hp | hp <;> rw [hp] at hcommit <;> cases hcommit
  | expose counting fresh two w =>
    refine deciding_of_left ?_
    show c.machine.phase.exposed = _ ∨ c.machine.phase.exposed = _
    rcases counting.phase with hp | hp | hp <;> simp [hp, Phase.exposed]
  | lock phase counted quorum locks w => exact h.lock watched phase counted quorum locks w
  | decide phase locked names resolved => exact h.decide watched phase locked names resolved
  | commit committing ends =>
    subst ends
    exact deciding_of_left (.inr rfl)
  | blame short =>
    refine ⟨h.early, ?_, fun stays active => ⟨short, (h.clean stays active).2⟩⟩
    intro hphase
    obtain ⟨d, since, hlocked, hlog, hcommit⟩ := h.held hphase
    refine ⟨d, since, hlocked, hlog, fun hp => ?_⟩
    obtain ⟨id, hdecision, hid, hsettled⟩ := hcommit hp
    exact ⟨id, hdecision, hid, hsettled.mono rfl rfl (List.Subset.refl _)⟩
  | resign resigns plain =>
    refine deciding_of_left ?_
    exact resigns.phase.imp And.right id

theorem Changes.deciding (turn : p.proposer e = .ok q) (changes : Changes p c c')
    (watched : Watched q e c) (honest : c.machine.policy.isHonest = true)
    (h : Deciding p q e c) : Watched q e c' ∧ Deciding p q e c' := by
  induction changes with
  | refl => exact ⟨watched, h⟩
  | tail path change ih =>
    exact ⟨change.watched turn ih.1, change.deciding ih.1 (Changes.policy path ▸ honest) ih.2⟩

theorem deciding_create (e : Epoch) (policy : Policy) (pendingLimit : Nat) :
    Deciding p q e (create (σ := σ) e policy pendingLimit) := by
  constructor <;> simp [create, Machine.create, Certificate.hasQuorum, Certificate.count,
    Certificate.silence, Roster.count, Roster.empty]

/-! ### Runs -/

/-- **What stands behind a decision.**  Whenever an honest epoch decides for a block, at any point
`c'` of a run, in the middle of a call as well: the block is that of a recorded proposal that is
valid; the epoch was ready until it locked the block with the votes of a majority and finished with
these; while it was on its lock the wait for evidence ended or everybody had voted; up to the
decision the proposer had signed for one block at most and no majority had blamed it; and the block
extends the committed chain. -/
theorem run_decides {policy : Policy} {pendingLimit : Nat} {calls : List (Call × σ)}
    {pre post : List (Entry σ)} {x : Moment σ} {e' : Epoch} {b : Block}
    (honest : policy.isHonest = true) (turn : p.proposer e = .ok q)
    (ran : (create e policy pendingLimit).run p calls = .ok c) (point : Changes p c c')
    (log : c'.log = pre ++ .did x :: post) (decides : x.effect = .decide e' b) :
    e' = e ∧ ∃ m, x.machine = some m ∧
      (∃ proposal ∈ m.proposals.toList, proposal.epoch = e ∧ p.isValid proposal = .ok true ∧
        proposal.block = b) ∧
      (∃ d since, LockedWith p e d since pre ∧ d.blockId? = some b.id ∧ Settled p e m since) ∧
      ((∀ y ∈ pre, ∀ m' ∈ y.machine?, Clean p q m') ∧ Clean p q m) ∧
      p.extendsChain b x.world = true := by
  have hrun := (run_changes (sound_create e policy pendingLimit) ran).1
  obtain ⟨c₁, proposal, w, hpath, rfl, committing, rfl⟩ :=
    Changes.exists_commit (hrun.trans point) rfl log (by rw [decides]; rfl)
  obtain ⟨rfl, rfl⟩ := Effect.decide.inj decides
  -- the epoch just before it handed the block on
  have hpolicy : c₁.machine.policy = policy := hpath.policy
  obtain ⟨hwatched, hdeciding⟩ := hpath.deciding turn (watched_create q e policy pendingLimit)
    honest (deciding_create e policy pendingLimit)
  have hphase := committing.phase
  have hclean := hdeciding.clean_machine hwatched (by simp [hphase]) (by simp [hphase])
  obtain ⟨d, since, -, hlog, hcommit⟩ := hdeciding.held (.inr hphase)
  obtain ⟨id, hdecision, hid, hsettled⟩ := hcommit hphase
  obtain ⟨height, hdecided⟩ := committing.decided
  have hblock : d.blockId? = some proposal.block.id := by
    rw [hdecided] at hdecision
    rw [hid, (Prod.mk.inj (Option.some.inj hdecision)).2]
  refine ⟨hwatched.epoch, _, rfl, ?_, ?_, ?_, committing.linked⟩
  · exact ⟨proposal, committing.recorded, committing.current.trans hwatched.epoch,
      committing.valid, rfl⟩
  · exact ⟨d, since, hlog, hblock, hsettled.mono rfl rfl (List.Subset.refl _)⟩
  · exact ⟨(hdeciding.clean (by simp [hphase]) (by simp [hphase])).2, hclean.single,
      hclean.unblamed⟩

def loneBlock : Block := .genesis [1]

/-- The only process of a system receives its proposal and its vote, and waits. -/
def loneCalls : List (Call × Script) :=
  [.start none none, .receive (.propose ⟨0, loneBlock, none, 0, 0, ⟨.fill 64 1⟩⟩),
    .receive (.vote ⟨0, 0, loneBlock.id, 0, ⟨.fill 64 1⟩, 0, none⟩),
    .expire ⟨0, .equivocation, 0⟩].map fun call => (call, ⟨[], none, true, true, true⟩)

/-- In this run a block is decided: the last thing that is done. -/
theorem run_decides_lone :
    let p := Script.host 0 1 none fun _ => 0
    ∃ c pre x, (create 0 ⟨.honest, false⟩ 1).run p loneCalls = .ok c ∧ p.proposer 0 = .ok 0 ∧
      c.log = pre ++ [.did x] ∧ x.effect = .decide 0 loneBlock ∧
      ∃ m, x.machine = some m ∧
        ∃ d since, LockedWith p 0 d since pre ∧ d.blockId? = some loneBlock.id ∧
          Settled p 0 m since := by
  intro p
  obtain ⟨c, ran, heffect⟩ : ∃ c, (create 0 ⟨.honest, false⟩ 1).run p loneCalls = .ok c ∧
      c.log.getLast?.bind Entry.effect? = some (.decide 0 loneBlock) :=
    exists_of_toOption (by decide +kernel)
  have turn : p.proposer 0 = .ok 0 := by decide +kernel
  obtain ⟨y, hlast, hy⟩ := Option.bind_eq_some_iff.mp heffect
  cases y with
  | called => cases hy
  | did x =>
    have decides : x.effect = .decide 0 loneBlock := Option.some.inj hy
    have hlog : c.log = c.log.dropLast ++ [.did x] := (List.dropLast_append_getLast? _ hlast).symm
    obtain ⟨-, m, hm, -, hlocked, -⟩ := run_decides rfl turn ran .refl hlog decides
    exact ⟨c, _, x, ran, turn, hlog, decides, m, hm, hlocked⟩

end EpochConsensus.Course
