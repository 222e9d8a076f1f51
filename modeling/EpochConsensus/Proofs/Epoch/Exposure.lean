import EpochConsensus.Epoch.Script
import EpochConsensus.Proofs.Epoch.Runs
import Mathlib.Data.List.Forall2

/-! # Exposed proposers

An epoch holds its proposer for exposed exactly when its votes hold the proposer's signature on two
blocks.  From then on it never decides, and an honest epoch has shown the two or more signatures to
the others, once and at that moment (`Course.run_exposes`).

Every signature of the proposer that comes in is looked into as it is counted, whatever brings it,
so the agreement of votes and exposure is an invariant (`Course.Watched`) that each change of an
epoch keeps.
-/
namespace EpochConsensus

variable {σ : Type}

/-! ### Evidence -/

/-- One vote of a process for each of some certificates, as the certificate has it. -/
inductive Certificate.Attests (process : ProcessId) (e : Epoch) : Certificate → Ballot → Prop
  | intro {c : Certificate} {height : Height} {id : BlockId} {signature : Signature}
      (statement : c.statement = ⟨e, .block height id⟩)
      (signed : c.signature? process = some signature) :
      Attests process e c (.vote ⟨e, height, id, process, signature, process, none⟩)

/-- The evidence of an honest process is one vote of the proposer for each certificate that the
proposer has signed. -/
theorem Machine.attests_evidence {m : Machine} {e : Epoch} {process : ProcessId}
    (honest : m.policy.isHonest = true)
    (blocks : ∀ c ∈ m.votes.toList, ∃ height id, c.statement = ⟨e, .block height id⟩) :
    List.Forall₂ (Certificate.Attests process e) (m.votes.signedBy process)
      (m.evidence process) := by
  unfold evidence
  rw [if_pos honest]
  have hsigned : ∀ c ∈ m.votes.signedBy process,
      (∃ height id, c.statement = ⟨e, .block height id⟩) ∧ c.signedBy process = true := by
    intro c hc
    obtain ⟨hc, hs⟩ := List.mem_filter.mp hc
    exact ⟨blocks c hc, hs⟩
  generalize m.votes.signedBy process = cs at hsigned ⊢
  induction cs with
  | nil => exact .nil
  | cons c cs ih =>
    obtain ⟨⟨height, id, hstatement⟩, hs⟩ := hsigned c List.mem_cons_self
    obtain ⟨signature, hsignature⟩ : ∃ signature, c.signature? process = some signature :=
      Option.isSome_iff_exists.mp hs
    have hballot : c.ballot? process =
        some (.vote ⟨e, height, id, process, signature, process, none⟩) := by
      simp [Certificate.ballot?, hsignature, Certificate.ballot, hstatement, Certificate.epoch]
    simp only [List.filterMap_cons, hballot]
    exact .cons (.intro hstatement hsignature)
      (ih fun d hd => hsigned d (List.mem_cons_of_mem _ hd))

/-! ### What every change keeps -/

namespace Entry

/-- The entry shows no evidence and no exposed proposer. -/
structure Unseen (x : Entry σ) : Prop where
  evidence : ∀ e ∈ x.effect?, e.isEvidence = false
  machine : ∀ m ∈ x.machine?, m.equivocation = false

end Entry

namespace Course

/-- The log of an epoch that has shown its evidence against `q`, all of it at once when the epoch
had just become `m`. -/
structure Shown (q : ProcessId) (e : Epoch) (m : Machine) (log : List (Entry σ)) : Prop where
  split : ∃ before after w, log = before ++ ((m.evidence q).map fun b =>
      .did ⟨.forward b.toMessage, w, some m⟩) ++ after ∧ (∀ x ∈ before, x.Unseen) ∧
    ∀ x ∈ after, ∀ e ∈ x.effect?, e.isEvidence = false
  exposed : m.equivocation = true
  two : 2 ≤ (m.votes.signedBy q).length
  attests : List.Forall₂ (Certificate.Attests q e) (m.votes.signedBy q) (m.evidence q)

/-- What every change keeps of the epoch `e` with the proposer `q`. -/
structure Watched (q : ProcessId) (e : Epoch) (c : Course σ) : Prop where
  epoch : c.machine.epoch = e
  sorted : c.machine.votes.Sorted
  blocks : ∀ d ∈ c.machine.votes.toList, ∃ height id, d.statement = ⟨e, .block height id⟩
  exact : c.machine.equivocation = true ↔ c.machine.votes.SignedTwice q
  left : c.machine.equivocation = true →
    c.machine.phase = .epochChange ∨ c.machine.phase = .finished
  undecided : c.machine.phase ≠ .commit →
    (c.machine.phase = .finished → c.machine.equivocation = true) →
    c.machine.decision = none ∧ Undecided c.log
  unseen : c.machine.equivocation = false → ∀ x ∈ c.log, x.Unseen
  shown : c.machine.equivocation = true → c.machine.policy.isHonest = true →
    ∃ m, Shown q e m c.log

variable {p : Host σ} {q : ProcessId} {e : Epoch} {c c' : Course σ}

theorem Shown.append {m : Machine} {log : List (Entry σ)} (h : Shown q e m log)
    {new : List (Entry σ)} (plain : ∀ x ∈ new, ∀ e ∈ x.effect?, e.isEvidence = false) :
    Shown q e m (log ++ new) := by
  obtain ⟨before, after, w, rfl, hbefore, hafter⟩ := h.split
  refine { h with split := ⟨before, after ++ new, w, by simp, hbefore, ?_⟩ }
  exact fun x hx => (List.mem_append.mp hx).elim (hafter x) (plain x)

/-- A phase in which an epoch may count, lock or decide: nobody is exposed, nothing is decided. -/
theorem Watched.fresh (h : Watched q e c) (phase : c.machine.phase ≠ .epochChange)
    (active : c.machine.phase ≠ .finished) : c.machine.equivocation = false := by
  rw [Bool.eq_false_iff]
  intro hexposed
  rcases h.left hexposed with h | h
  · exact phase h
  · exact active h

/-- A change of anything but the votes. -/
theorem Watched.grow (h : Watched q e c) {m : Machine} {new : List (Entry σ)}
    (epoch : m.epoch = c.machine.epoch) (policy : m.policy = c.machine.policy)
    (votes : m.votes = c.machine.votes) (equivocation : m.equivocation = c.machine.equivocation)
    (left : m.equivocation = true → m.phase = .epochChange ∨ m.phase = .finished)
    (undecided : m.phase ≠ .commit → (m.phase = .finished → m.equivocation = true) →
      m.decision = none ∧ Undecided (c.log ++ new))
    (plain : ∀ x ∈ new, (∀ e ∈ x.effect?, e.isEvidence = false) ∧
      ∀ m' ∈ x.machine?, m'.equivocation = c.machine.equivocation) :
    Watched q e ⟨m, c.log ++ new⟩ where
  epoch := epoch.trans h.epoch
  sorted := votes ▸ h.sorted
  blocks := votes ▸ h.blocks
  exact := by rw [equivocation, votes]; exact h.exact
  left := left
  undecided := undecided
  unseen := by
    intro hfresh x hx
    have hfresh : c.machine.equivocation = false := equivocation.symm.trans hfresh
    rcases List.mem_append.mp hx with hx | hx
    · exact h.unseen hfresh x hx
    · exact ⟨(plain x hx).1, fun m' hm' => ((plain x hx).2 m' hm').trans hfresh⟩
  shown := by
    intro hexposed honest
    obtain ⟨m', hshown⟩ := h.shown (equivocation.symm.trans hexposed) (policy ▸ honest)
    exact ⟨m', hshown.append fun x hx => (plain x hx).1⟩

/-- The votes stay in order, and of the epoch's own blocks. -/
theorem Watched.sorted_count (h : Watched q e c) {v : Vote} (counting : c.Counting p q v) :
    (c.machine.count q v).votes.Sorted ∧ ∀ d ∈ (c.machine.count q v).votes.toList,
      ∃ height id, d.statement = ⟨e, .block height id⟩ := by
  refine ⟨h.sorted.put _, ?_⟩
  intro d hd
  rcases c.machine.votes.mem_of_mem_put hd with rfl | hold
  · exact ⟨_, _, h.epoch ▸ counting.statement⟩
  · exact h.blocks d hold

/-- A signature that is counted may complete an equivocation, but never takes one away. -/
theorem Watched.signedTwice_count (h : Watched q e c) {v : Vote} (counting : c.Counting p q v)
    (twice : c.machine.votes.SignedTwice q) : (c.machine.count q v).votes.SignedTwice q := by
  have hsubject : (c.machine.counted q v).statement.subject = .block v.height v.blockId := by
    rw [counting.statement]
  have hmore : (c.machine.votes.get c.machine.epoch v.height v.blockId).signedBy q = true →
      (c.machine.counted q v).signedBy q = true := fun hsigned => Host.signedBy_counted hsigned q
  exact twice.put h.sorted hsubject hmore

/-- A vote that exposes nobody leaves the votes in agreement with the exposure. -/
theorem Watched.exact_count (h : Watched q e c) {v : Vote} (counting : c.Counting p q v)
    (known : (c.machine.counted q v).signedBy q =
        (c.machine.votes.get c.machine.epoch v.height v.blockId).signedBy q ∨
      c.machine.equivocation = true ∨
      ((c.machine.count q v).votes.signedBy q).length < 2) :
    c.machine.equivocation = true ↔ (c.machine.count q v).votes.SignedTwice q := by
  have hsubject : (c.machine.counted q v).statement.subject = .block v.height v.blockId := by
    rw [counting.statement]
  rcases known with hsame | hexposed | hfew
  · rw [h.exact]
    exact (Votes.signedTwice_put_iff h.sorted hsubject hsame).symm
  · exact ⟨fun _ => h.signedTwice_count counting (h.exact.mp hexposed), fun _ => hexposed⟩
  · have hnot : ¬ (c.machine.count q v).votes.SignedTwice q := by
      rw [Votes.signedTwice_iff (h.sorted_count counting).1]
      omega
    exact ⟨fun hexposed => absurd (h.signedTwice_count counting (h.exact.mp hexposed)) hnot,
      fun htwice => absurd htwice hnot⟩

/-- The epoch as the proposer is exposed. -/
theorem Watched.expose (h : Watched q e c) {v : Vote} (counting : c.Counting p q v)
    (fresh : c.machine.equivocation = false)
    (two : 2 ≤ ((c.machine.count q v).votes.signedBy q).length) (w : σ) :
    Watched q e ⟨(c.machine.count q v).exposed,
      c.log ++ ((c.machine.count q v).evidence q).map fun b =>
        .did ⟨.forward b.toMessage, w, some (c.machine.count q v).exposed⟩⟩ := by
  obtain ⟨hsorted, hblocks⟩ := h.sorted_count counting
  have hshows : Undecided (((c.machine.count q v).evidence q).map fun b =>
      (.did ⟨.forward b.toMessage, w, some (c.machine.count q v).exposed⟩ : Entry σ)) := by
    simp [Undecided, Entry.effect?, Effect.isDecision]
  have hundecided : c.machine.decision = none ∧ Undecided c.log := by
    apply h.undecided <;> rcases counting.phase with hp | hp | hp <;> simp [hp]
  refine ⟨h.epoch, hsorted, hblocks, ?_, ?_, ?_, ?_, ?_⟩
  · exact ⟨fun _ => (Votes.signedTwice_iff hsorted).mpr two, fun _ => rfl⟩
  · intro _
    show c.machine.phase.exposed = _ ∨ c.machine.phase.exposed = _
    rcases counting.phase with hp | hp | hp <;> simp [hp, Phase.exposed]
  · exact fun _ _ => ⟨hundecided.1, hundecided.2.append hshows⟩
  · intro hfresh
    cases hfresh
  · intro _ honest
    refine ⟨(c.machine.count q v).exposed, ⟨c.log, [], w, ?_, h.unseen fresh, by simp⟩, rfl, two,
      ?_⟩
    · exact (List.append_nil _).symm
    · exact Machine.attests_evidence honest hblocks

/-- **Every change keeps the votes in agreement with the exposure.** -/
theorem Change.watched (turn : p.proposer e = .ok q) (change : Change p c c')
    (h : Watched q e c) : Watched q e c' := by
  have hproposer : ∀ proposer v, c.Counting p proposer v → proposer = q := by
    intro proposer v counting
    have hturn := counting.turn
    rw [h.epoch, turn] at hturn
    exact (Except.ok.inj hturn).symm
  cases change with
  | call call =>
    refine h.grow rfl rfl rfl rfl h.left ?_ ?_
    · intro hp hf
      obtain ⟨hdecision, hlog⟩ := h.undecided hp hf
      exact ⟨hdecision, hlog.append (by simp [Undecided, Entry.effect?])⟩
    · simp [Entry.effect?, Entry.machine?]
  | calm alike calm =>
    refine h.grow alike.epoch alike.policy alike.votes alike.equivocation ?_ ?_ ?_
    · rw [alike.equivocation, alike.phase]
      exact h.left
    · rw [alike.equivocation, alike.phase, alike.decision]
      intro hp hf
      exact ⟨(h.undecided hp hf).1, (h.undecided hp hf).2.append
        (undecided_did fun x hx => (calm x hx).plain.decision)⟩
    · refine List.forall_mem_map.mpr fun x hx => ⟨?_, fun m hm => ?_⟩
      · rintro _ ⟨⟩
        exact (calm x hx).plain.evidence
      · exact ((calm x hx).alike m hm).equivocation
  | opens phase valid locked =>
    have hfresh := h.fresh (by simp [phase]) (by simp [phase])
    have hundecided := h.undecided (by simp [phase]) (by simp [phase])
    rw [← List.append_nil c.log]
    refine h.grow rfl rfl rfl rfl ?_ ?_ (by simp)
    · simp [Machine.opened, hfresh]
    · intro _ _
      exact ⟨hundecided.1, by rw [List.append_nil]; exact hundecided.2⟩
  | count counting known =>
    obtain rfl := hproposer _ _ counting
    obtain ⟨hsorted, hblocks⟩ := h.sorted_count counting
    exact { h with sorted := hsorted, blocks := hblocks, exact := h.exact_count counting known }
  | expose counting fresh two w =>
    obtain rfl := hproposer _ _ counting
    exact h.expose counting fresh two w
  | lock phase counted quorum locks w =>
    subst locks
    have hfresh := h.fresh (by simp [phase]) (by simp [phase])
    have hundecided := h.undecided (by simp [phase]) (by simp [phase])
    refine h.grow rfl rfl rfl rfl ?_ ?_ ?_
    · simp [hfresh]
    · exact fun _ _ => ⟨hundecided.1,
        hundecided.2.append (by simp [Undecided, Entry.effect?, Effect.isDecision])⟩
    · simp [Entry.effect?, Entry.machine?, Effect.isEvidence]
  | decide phase locked names resolved =>
    have hfresh := h.fresh (by simp [phase]) (by simp [phase])
    rw [← List.append_nil c.log]
    refine h.grow rfl rfl rfl rfl ?_ ?_ (by simp)
    · simp [hfresh]
    · simp
  | commit committing ends =>
    subst ends
    have hphase := committing.phase
    have hfresh := h.fresh (by simp [hphase]) (by simp [hphase])
    refine h.grow rfl rfl rfl rfl ?_ ?_ ?_
    · simp
    · simp [hfresh]
    · simp [Entry.effect?, Entry.machine?, Effect.isEvidence]
  | blame short => exact { h with }
  | @resign m xs resigns plain =>
    have hleft : m.equivocation = true →
        c.machine.phase = .epochChange ∨ c.machine.phase = .finished :=
      fun hexposed => h.left (resigns.equivocation ▸ hexposed)
    refine h.grow resigns.epoch resigns.policy resigns.votes resigns.equivocation ?_ ?_ ?_
    · intro hexposed
      rcases resigns.phase with ⟨hready, -⟩ | hfinished
      · rcases hleft hexposed with hp | hp <;> simp [hready] at hp
      · exact .inr hfinished
    · intro hp hf
      have hundecided : c.machine.decision = none ∧ Undecided c.log := by
        rcases resigns.phase with ⟨hready, -⟩ | hfinished
        · exact h.undecided (by simp [hready]) (by simp [hready])
        · have hexposed := hf hfinished
          refine h.undecided ?_ fun _ => resigns.equivocation ▸ hexposed
          rcases hleft hexposed with hp | hp <;> simp [hp]
      exact ⟨resigns.decision.trans hundecided.1, hundecided.2.append
        (undecided_did fun x hx => (plain x hx).1.decision)⟩
    · refine List.forall_mem_map.mpr fun x hx => ⟨?_, (plain x hx).2⟩
      rintro _ ⟨⟩
      exact (plain x hx).1.evidence

theorem Changes.watched (turn : p.proposer e = .ok q) (h : Changes p c c') (hc : Watched q e c) :
    Watched q e c' := by
  induction h with
  | refl => exact hc
  | tail _ change ih => exact change.watched turn ih

/-- Before any call nobody has signed anything. -/
theorem watched_create (q : ProcessId) (e : Epoch) (policy : Policy) (pendingLimit : Nat) :
    Watched q e (create (σ := σ) e policy pendingLimit) where
  epoch := rfl
  sorted := Votes.sorted_empty
  blocks _ h := absurd h List.not_mem_nil
  exact := by simp [create, Machine.create, Votes.SignedTwice, Votes.empty]
  left := by simp [create, Machine.create]
  undecided _ _ := ⟨rfl, by simp [create, Undecided]⟩
  unseen _ _ h := absurd h List.not_mem_nil
  shown := by simp [create, Machine.create]

/-- Who is exposed stays exposed. -/
theorem Change.exposed (change : Change p c c') (h : c.machine.equivocation = true) :
    c'.machine.equivocation = true := by
  cases change with
  | calm alike => exact alike.equivocation.trans h
  | expose => rfl
  | lock _ _ _ locks => exact locks ▸ h
  | commit _ ends => exact ends ▸ h
  | resign resigns => exact resigns.equivocation.trans h
  | _ => exact h

theorem Changes.exposed (changes : Changes p c c') (h : c.machine.equivocation = true) :
    c'.machine.equivocation = true := by
  induction changes with
  | refl => exact h
  | tail _ change ih => exact change.exposed ih

/-- An exposed epoch has not decided. -/
theorem Watched.undecided_of_exposed (h : Watched q e c) (exposed : c.machine.equivocation = true) :
    c.machine.decision = none ∧ Undecided c.log := by
  refine h.undecided ?_ fun _ => exposed
  rcases h.left exposed with hp | hp <;> simp [hp]

/-! ### Runs -/

/-- **Exposure is exact and final.**  After any run of calls the proposer is exposed exactly when
the votes hold its signature on two blocks.  An exposed epoch is left or finished, it holds no
decision, and at no point `c₂` of what follows, in the middle of a call as well, is one on its log.
An honest epoch shows evidence only then: once, one vote for each certificate that the proposer had
signed at the moment of exposure, and so two or more. -/
theorem run_exposes {policy : Policy} {pendingLimit : Nat} {calls : List (Call × σ)}
    (turn : p.proposer e = .ok q) (ran : (create e policy pendingLimit).run p calls = .ok c) :
    (c.machine.equivocation = true ↔ c.machine.votes.SignedTwice q) ∧
      (c.machine.equivocation = true →
        (c.machine.phase = .epochChange ∨ c.machine.phase = .finished) ∧
          c.machine.decision = none ∧
          ∀ calls' c₁ c₂, c.run p calls' = .ok c₁ → Changes p c₁ c₂ →
            c₂.machine.equivocation = true ∧ Undecided c₂.log) ∧
      (policy.isHonest = true → (c.machine.equivocation = false → ∀ x ∈ c.log, x.Unseen) ∧
        (c.machine.equivocation = true → ∃ m, Shown q e m c.log)) := by
  obtain ⟨hchanges, hsound⟩ := run_changes (sound_create e policy pendingLimit) ran
  have hwatched : Watched q e c := hchanges.watched turn (watched_create q e policy pendingLimit)
  refine ⟨hwatched.exact, ?_, ?_⟩
  · intro hexposed
    refine ⟨hwatched.left hexposed, (hwatched.undecided_of_exposed hexposed).1, ?_⟩
    intro calls' c₁ c₂ more point
    have hrest : Changes p c c₂ := (run_changes hsound more).1.trans point
    have hexposed₂ := hrest.exposed hexposed
    have hwatched₂ : Watched q e c₂ := hrest.watched turn hwatched
    exact ⟨hexposed₂, (hwatched₂.undecided_of_exposed hexposed₂).2⟩
  · intro honest
    have hpolicy : c.machine.policy = policy := hchanges.policy
    exact ⟨hwatched.unseen, fun hexposed => hwatched.shown hexposed (hpolicy ▸ honest)⟩

/-- The vote of process 0, which proposes in epoch 0, for a block with this name. -/
def doubleVote (name : UInt8) : Vote := ⟨0, 0, ⟨.fill 32 name⟩, 0, ⟨.fill 64 1⟩, 0, none⟩

/-- Process 1 of three receives two votes of the proposer. -/
def doubleCalls : List (Call × Script) :=
  [.start none none, .receive (.vote (doubleVote 1)), .receive (.vote (doubleVote 2))].map
    fun call => (call, ⟨[], none, true, true, true⟩)

/-- In this run the proposer is exposed and its two votes are shown. -/
theorem run_exposes_double :
    let p := Script.host 1 3 none fun _ => 0
    ∃ c, (create 0 ⟨.honest, false⟩ 1).run p doubleCalls = .ok c ∧ p.proposer 0 = .ok 0 ∧
      c.machine.equivocation = true ∧ c.machine.votes.SignedTwice 0 ∧
      c.machine.phase = .epochChange ∧ ∃ m, Shown 0 0 m c.log := by
  intro p
  obtain ⟨c, ran, heq⟩ : ∃ c, (create 0 ⟨.honest, false⟩ 1).run p doubleCalls = .ok c ∧
      (c.machine.equivocation, c.machine.phase) = (true, .epochChange) :=
    exists_of_toOption (by decide +kernel)
  obtain ⟨hexposed, hphase⟩ := Prod.mk.inj heq
  have turn : p.proposer 0 = .ok 0 := by decide +kernel
  obtain ⟨hexact, -, hshown⟩ := run_exposes turn ran
  exact ⟨c, ran, turn, hexposed, hexact.mp hexposed, hphase, (hshown rfl).2 hexposed⟩

end Course

end EpochConsensus
