import EpochConsensus.Proofs.Epoch.Calls
import EpochConsensus.Proofs.Epoch.Votes

/-! # The course of an epoch

An epoch over its whole life: a `Course` is an epoch with the log of every call on it and of all
that it did; at each call the host may be in any state.  A `Course.Change` is one of the changes
that a course is made of.  It is coarse enough for the votes and the blame of an epoch to agree
with its phase before and after, and most of what an epoch does changes none of them (`Step.Calm`).
Every run of calls is a path of changes (`Course.run_changes`), so what all changes keep holds
throughout a run, and a decision on the log was made by one of them
(`Course.Changes.exists_commit`).
-/
namespace EpochConsensus

variable {σ : Type}

/-! ### Effects -/

namespace Effect

/-- A vote that is passed on as evidence, and so without a second signature. -/
def isEvidence : Effect → Bool
  | forward (.vote v) => v.cosignature.isNone
  | _ => false

def isDecision : Effect → Bool
  | decide _ _ => true
  | _ => false

/-- Neither evidence nor a decision. -/
structure IsPlain (e : Effect) : Prop where
  evidence : e.isEvidence = false
  decision : e.isDecision = false

end Effect

/-! ### Calls and courses -/

/-- A call on an epoch. -/
inductive Call where
  | start (valid locked : Option Certificate)
  | receive (m : Message)
  | expire (t : Timeout)
  | stop

/-- What one call on an epoch comes to. -/
def Host.call (p : Host σ) : Call → Step σ → Except Fault (Step σ)
  | .start valid locked, s => p.start valid locked s
  | .receive m, s => p.receive m s
  | .expire t, s => p.expire t s
  | .stop, s => .ok { s with machine := s.machine.stop }

/-- What is on the log of an epoch. -/
inductive Entry (σ : Type) where
  /-- A call on the epoch, which was in this state. -/
  | called (call : Call) (machine : Machine)
  /-- The epoch did something. -/
  | did (moment : Moment σ)

namespace Entry

/-- The epoch at the time, where it is on the log. -/
def machine? : Entry σ → Option Machine
  | called _ m => some m
  | did x => x.machine

def effect? : Entry σ → Option Effect
  | called _ _ => none
  | did x => some x.effect

end Entry

/-- An epoch with the log of what was done to it and of what it did. -/
structure Course (σ : Type) where
  machine : Machine
  log : List (Entry σ)

namespace Course

/-- Before any call. -/
def create (epoch : Epoch) (policy : Policy) (pendingLimit : Nat) : Course σ :=
  ⟨.create epoch policy pendingLimit, []⟩

/-- In the middle of a call, with the log before it. -/
def within (log : List (Entry σ)) (s : Step σ) : Course σ :=
  ⟨s.machine, log ++ s.moments.toList.map .did⟩

/-- One more call, with the host in state `w`. -/
def take (p : Host σ) (c : Course σ) (call : Call) (w : σ) : Except Fault (Course σ) := do
  let s ← p.call call ⟨.start w, c.machine⟩
  return within (c.log ++ [.called call c.machine]) s

/-- One call after the other, each with the host in a state of its own. -/
def run (p : Host σ) (c : Course σ) (calls : List (Call × σ)) : Except Fault (Course σ) :=
  calls.foldlM (fun c x => c.take p x.1 x.2) c

/-- A call on the course is one on the epoch, and is on the log with all that it did. -/
theorem take_eq_ok {p : Host σ} {c c' : Course σ} {call : Call} {w : σ} :
    c.take p call w = .ok c' ↔ ∃ s, p.call call ⟨.start w, c.machine⟩ = .ok s ∧
      within (c.log ++ [.called call c.machine]) s = c' := by
  unfold take
  simp [bind_eq_ok, pure, Except.pure]

theorem within_emit (log : List (Entry σ)) (s : Step σ) (e : Effect) :
    within log (s.emit e) =
      ⟨s.machine, (within log s).log ++ [.did ⟨e, s.world, some s.machine⟩]⟩ := by
  simp [within]

theorem within_forwardAll (log : List (Entry σ)) (s : Step σ) (bs : List Ballot) :
    within log (s.forwardAll bs) =
      ⟨s.machine, (within log s).log ++
        bs.map fun b => .did ⟨.forward b.toMessage, s.world, some s.machine⟩⟩ := by
  simp [within, Function.comp_def]

end Course

/-! ### Calm changes -/

/-- Two states of an epoch in the same phase, with the same votes, blame and decision and, for an
honest process, the same lock. -/
structure Machine.Alike (m m' : Machine) : Prop where
  epoch : m'.epoch = m.epoch
  policy : m'.policy = m.policy
  phase : m'.phase = m.phase
  votes : m'.votes = m.votes
  blame : m'.blame = m.blame
  equivocation : m'.equivocation = m.equivocation
  decision : m'.decision = m.decision
  locked : m.policy.isHonest = true → m'.locked = m.locked

namespace Machine.Alike

variable {m m' m'' : Machine}

theorem refl (m : Machine) : m.Alike m := ⟨rfl, rfl, rfl, rfl, rfl, rfl, rfl, fun _ => rfl⟩

/-- Timers, kept messages, proposals and the own vote make no difference. -/
theorem aside {timers : Timers} {pending : List Message} {proposals : Proposals}
    {hasVoted : Bool} : m.Alike { m with timers, pending, proposals, hasVoted } :=
  ⟨rfl, rfl, rfl, rfl, rfl, rfl, rfl, fun _ => rfl⟩

theorem trans (h : m.Alike m') (h' : m'.Alike m'') : m.Alike m'' where
  epoch := h'.epoch.trans h.epoch
  policy := h'.policy.trans h.policy
  phase := h'.phase.trans h.phase
  votes := h'.votes.trans h.votes
  blame := h'.blame.trans h.blame
  equivocation := h'.equivocation.trans h.equivocation
  decision := h'.decision.trans h.decision
  locked honest := (h'.locked (h.policy ▸ honest)).trans (h.locked honest)

end Machine.Alike

/-- Something plain, done by an epoch that was like `m`. -/
structure Moment.Calm (m : Machine) (x : Moment σ) : Prop where
  plain : x.effect.IsPlain
  alike : ∀ m' ∈ x.machine, m.Alike m'

/-- What leaves an epoch alike and does nothing but what is plain. -/
structure Step.Calm (s s' : Step σ) : Prop where
  alike : s.machine.Alike s'.machine
  moments : ∃ xs, s'.moments.toList = s.moments.toList ++ xs ∧ ∀ x ∈ xs, Moment.Calm s.machine x

namespace Step.Calm

variable {s s' s'' : Step σ}

theorem refl (s : Step σ) : s.Calm s := ⟨.refl _, [], by simp, by simp⟩

theorem trans (h : s.Calm s') (h' : s'.Calm s'') : s.Calm s'' := by
  obtain ⟨xs, hxs, hcalm⟩ := h.moments
  obtain ⟨ys, hys, hcalm'⟩ := h'.moments
  refine ⟨h.alike.trans h'.alike, xs ++ ys, by rw [hys, hxs, List.append_assoc], ?_⟩
  intro x hx
  rcases List.mem_append.mp hx with hx | hx
  · exact hcalm x hx
  · exact ⟨(hcalm' x hx).plain, fun m hm => h.alike.trans ((hcalm' x hx).alike m hm)⟩

/-- A change that does nothing. -/
theorem of_alike {m : Machine} (h : s.machine.Alike m) : s.Calm { s with machine := m } :=
  ⟨h, [], by simp, by simp⟩

theorem emit {e : Effect} (h : e.IsPlain) : s.Calm (s.emit e) := by
  refine ⟨.refl _, [_], Array.toList_push, ?_⟩
  rintro x hx
  obtain rfl := List.mem_singleton.mp hx
  refine ⟨h, ?_⟩
  rintro m ⟨⟩
  exact .refl _

/-- A question to the host. -/
theorem ask {world : σ} {e : Effect} (h : e.IsPlain) :
    s.Calm { s with toContext := { s.toContext with world }.emit e } := by
  refine ⟨.refl _, [_], Array.toList_push, ?_⟩
  rintro x hx
  obtain rfl := List.mem_singleton.mp hx
  exact ⟨h, by rintro m ⟨⟩⟩

end Step.Calm

namespace Host

variable {p : Host σ} {s s' : Step σ}

theorem Asks.calm {c : Context σ} (h : p.Asks s.toContext c) :
    s.Calm { s with toContext := c } := by
  rcases h with rfl | ⟨t, rfl⟩
  · exact .refl s
  · exact .ask ⟨rfl, rfl⟩

theorem schedule_calm (kind : TimeoutKind) (s : Step σ) : s.Calm (p.schedule kind s) := by
  obtain ⟨c, timers, asked, heq⟩ := p.schedule_eq kind s
  rw [heq]
  exact asked.calm.trans (.of_alike .aside)

theorem store_calm {b : Block} {added : Bool} {c : Context σ}
    (h : p.store s.toContext b = .ok (added, c)) : s.Calm { s with toContext := c } := by
  unfold store at h
  simp only [pure, Except.pure] at h
  obtain ⟨⟨answer, world⟩, -, h⟩ := bind_eq_ok.mp h
  cases h
  exact .ask ⟨rfl, rfl⟩

theorem takeValue_calm (s : Step σ) :
    s.Calm { s with toContext := (p.takeValue s.toContext).2 } := .ask ⟨rfl, rfl⟩

theorem propose_calm (h : p.propose s = .ok s') : s.Calm s' := by
  unfold propose at h
  simp only [pure, Except.pure] at h
  have hasked := p.takeValue_calm s
  split at h
  · cases h
    exact hasked
  · obtain ⟨b, -, h⟩ := bind_eq_ok.mp h
    cases h
    exact hasked.trans (.emit ⟨rfl, rfl⟩)

theorem proposeSplit_calm (h : p.proposeSplit s = .ok s') : s.Calm s' := by
  unfold proposeSplit at h
  simp only [pure, Except.pure] at h
  have hasked := (p.takeValue_calm s).trans (p.takeValue_calm _)
  split at h
  · simp only [bind_eq_ok] at h
    obtain ⟨a, -, b, -, h⟩ := h
    cases h
    exact hasked.trans ((Step.Calm.emit ⟨rfl, rfl⟩).trans (.emit ⟨rfl, rfl⟩))
  · cases h
    exact hasked

/-- Beginning proposes or waits, and leaves the epoch alike. -/
theorem begin_calm (h : p.begin s = .ok s') : s.Calm s' := by
  unfold begin at h
  simp only [pure, Except.pure] at h
  obtain ⟨q, -, h⟩ := bind_eq_ok.mp h
  split at h
  · unfold lead at h
    simp only [pure, Except.pure] at h
    split at h
    · exact propose_calm h
    · obtain ⟨follows, -, h⟩ := bind_eq_ok.mp h
      split at h
      · exact proposeSplit_calm h
      · cases h
        exact schedule_calm _ _
  · cases h
    exact schedule_calm _ _

theorem keep_calm (x : Message) (s : Step σ) : s.Calm (keep x s) := by
  obtain ⟨pending, heq, -⟩ := keep_eq x s
  rw [heq]
  exact .of_alike .aside

end Host

/-! ### Changes -/

/-- The epoch with one more vote counted. -/
def Machine.count (m : Machine) (proposer : ProcessId) (v : Vote) : Machine :=
  { m with votes := m.votes.put (m.counted proposer v) }

/-- The epoch once its proposer was seen to sign two blocks. -/
def Machine.exposed (m : Machine) : Machine :=
  { m with equivocation := true, phase := m.phase.exposed }

/-- An epoch gives up deciding: it is left, or it ends. -/
structure Machine.Resigns (m m' : Machine) : Prop where
  epoch : m'.epoch = m.epoch
  policy : m'.policy = m.policy
  votes : m'.votes = m.votes
  equivocation : m'.equivocation = m.equivocation
  decision : m'.decision = m.decision
  phase : m.phase = .ready ∧ m'.phase = .epochChange ∨ m'.phase = .finished

namespace Course

variable (p : Host σ)

/-- An epoch that counts votes of its own blocks: it has neither decided nor ended. -/
structure Counting (c : Course σ) (proposer : ProcessId) (v : Vote) : Prop where
  phase : c.machine.phase = .ready ∨ c.machine.phase = .locked ∨ c.machine.phase = .epochChange
  turn : p.proposer c.machine.epoch = .ok proposer
  statement : (c.machine.counted proposer v).statement =
    ⟨c.machine.epoch, .block v.height v.blockId⟩

/-- What makes an epoch decide on the block that it has locked. -/
inductive Resolved (c : Course σ) : Prop
  /-- Every process has voted, and the policy does not wait any longer. -/
  | fast (policy : c.machine.policy.fastPath = true) {d : Certificate}
      (counted : d ∈ c.machine.votes.toList) (all : d.count = p.count)
  /-- Nobody has shown an equivocation in time. -/
  | waited {t : Timeout} {m : Machine} (last : c.log.getLast? = some (.called (.expire t) m))
      (kind : t.kind = .equivocation) (current : t.epoch = c.machine.epoch)
      (phase : m.phase = .locked)

/-- An epoch that has decided on the block of a valid proposal, and can hand it on. -/
structure Committing (c : Course σ) (proposal : Proposal) (w : σ) : Prop where
  phase : c.machine.phase = .commit
  decided : ∃ height, c.machine.decision = some (height, proposal.block.id)
  recorded : proposal ∈ c.machine.proposals.toList
  current : proposal.epoch = c.machine.epoch
  valid : p.isValid proposal = .ok true
  linked : p.extendsChain proposal.block w = true

/-- One change that the course of an epoch is made of. -/
inductive Change : Course σ → Course σ → Prop
  | call (c : Course σ) (call : Call) :
      Change c ⟨c.machine, c.log ++ [.called call c.machine]⟩
  | calm {c : Course σ} {m : Machine} {xs : List (Moment σ)} (alike : c.machine.Alike m)
      (calm : ∀ x ∈ xs, x.Calm c.machine) : Change c ⟨m, c.log ++ xs.map .did⟩
  | opens {c : Course σ} (phase : c.machine.phase = .inactive) (valid locked : Option Certificate) :
      Change c ⟨c.machine.opened valid locked, c.log⟩
  /-- A vote is counted that exposes nobody. -/
  | count {c : Course σ} {proposer : ProcessId} {v : Vote} (counting : c.Counting p proposer v)
      (known : (c.machine.counted proposer v).signedBy proposer =
          (c.machine.votes.get c.machine.epoch v.height v.blockId).signedBy proposer ∨
        c.machine.equivocation = true ∨
        ((c.machine.count proposer v).votes.signedBy proposer).length < 2) :
      Change c ⟨c.machine.count proposer v, c.log⟩
  /-- A vote is counted that exposes the proposer. -/
  | expose {c : Course σ} {proposer : ProcessId} {v : Vote} (counting : c.Counting p proposer v)
      (fresh : c.machine.equivocation = false)
      (two : 2 ≤ ((c.machine.count proposer v).votes.signedBy proposer).length) (w : σ) :
      Change c ⟨(c.machine.count proposer v).exposed,
        c.log ++ ((c.machine.count proposer v).evidence proposer).map fun b =>
          .did ⟨.forward b.toMessage, w, some (c.machine.count proposer v).exposed⟩⟩
  | lock {c : Course σ} {d : Certificate} {m : Machine} (phase : c.machine.phase = .ready)
      (counted : d ∈ c.machine.votes.toList) (quorum : d.hasQuorum p.count = true)
      (locks : m = { c.machine with phase := .locked, valid := some d, locked := some d })
      (w : σ) :
      Change c ⟨m, c.log ++ [.did ⟨.broadcast (.quitEpoch d), w, some m⟩,
        .did ⟨.finish m.epoch (some d) (some d), w, some m⟩]⟩
  | decide {c : Course σ} {d : Certificate} {id : BlockId} (phase : c.machine.phase = .locked)
      (locked : c.machine.locked = some d) (names : d.blockId? = some id)
      (resolved : c.Resolved p) :
      Change c ⟨{ c.machine with phase := .commit, decision := some (d.height, id) }, c.log⟩
  | commit {c : Course σ} {proposal : Proposal} {w : σ} {m : Machine}
      (committing : c.Committing p proposal w) (ends : m = { c.machine with phase := .finished }) :
      Change c ⟨m, c.log ++ [.did ⟨.decide m.epoch proposal.block, w, some m⟩]⟩
  /-- Blame comes in, but not of a majority. -/
  | blame {c : Course σ} {blame : Certificate} (short : blame.hasQuorum p.count = false) :
      Change c ⟨{ c.machine with blame := blame }, c.log⟩
  | resign {c : Course σ} {m : Machine} {xs : List (Moment σ)} (resigns : c.machine.Resigns m)
      (plain : ∀ x ∈ xs, x.effect.IsPlain ∧
        ∀ m' ∈ x.machine, m'.equivocation = c.machine.equivocation) :
      Change c ⟨m, c.log ++ xs.map .did⟩

/-- Any number of changes. -/
abbrev Changes : Course σ → Course σ → Prop := Relation.ReflTransGen (Change p)

variable {p} {c c' : Course σ} {log : List (Entry σ)} {s s' : Step σ}
  {heard : Endorsement → Prop}

/-- An epoch keeps its policy. -/
theorem Change.policy (h : Change p c c') : c'.machine.policy = c.machine.policy := by
  cases h with
  | calm alike => exact alike.policy
  | lock _ _ _ locks => rw [locks]
  | commit _ ends => rw [ends]
  | resign resigns => exact resigns.policy
  | _ => rfl

theorem Changes.policy (h : Changes p c c') : c'.machine.policy = c.machine.policy := by
  induction h with
  | refl => rfl
  | tail _ change ih => exact change.policy.trans ih

/-- It is the epoch that it was. -/
theorem Change.epoch (h : Change p c c') : c'.machine.epoch = c.machine.epoch := by
  cases h with
  | calm alike => exact alike.epoch
  | lock _ _ _ locks => rw [locks]
  | commit _ ends => rw [ends]
  | resign resigns => exact resigns.epoch
  | _ => rfl

theorem Changes.epoch (h : Changes p c c') : c'.machine.epoch = c.machine.epoch := by
  induction h with
  | refl => rfl
  | tail _ change ih => exact change.epoch.trans ih

/-- No decision is on the log. -/
def Undecided (log : List (Entry σ)) : Prop :=
  ∀ x ∈ log, ∀ e ∈ x.effect?, e.isDecision = false

theorem Undecided.append {log new : List (Entry σ)} (h : Undecided log) (h' : Undecided new) :
    Undecided (log ++ new) :=
  fun x hx => (List.mem_append.mp hx).elim (h x) (h' x)

theorem undecided_did {xs : List (Moment σ)} (h : ∀ x ∈ xs, x.effect.isDecision = false) :
    Undecided (xs.map .did) := by
  refine List.forall_mem_map.mpr fun x hx => ?_
  rintro _ ⟨⟩
  exact h x hx

/-- A decision is put on the log only as the epoch commits. -/
theorem Change.log_cases (h : Change p c c') : ∃ new, c'.log = c.log ++ new ∧
    (Undecided new ∨
      ∃ proposal w, c.Committing p proposal w ∧
        new = [.did ⟨.decide c.machine.epoch proposal.block, w,
          some { c.machine with phase := .finished }⟩]) := by
  cases h with
  | call => exact ⟨_, rfl, .inl (by simp [Undecided, Entry.effect?])⟩
  | calm alike calm => exact ⟨_, rfl, .inl (undecided_did fun x hx => (calm x hx).plain.decision)⟩
  | opens | count | decide | blame =>
    exact ⟨[], (List.append_nil _).symm, .inl (by simp [Undecided])⟩
  | expose => exact ⟨_, rfl, .inl (by simp [Undecided, Entry.effect?, Effect.isDecision])⟩
  | lock => exact ⟨_, rfl, .inl (by simp [Undecided, Entry.effect?, Effect.isDecision])⟩
  | commit committing ends =>
    subst ends
    exact ⟨_, rfl, .inr ⟨_, _, committing, rfl⟩⟩
  | resign resigns plain =>
    exact ⟨_, rfl, .inl (undecided_did fun x hx => (plain x hx).1.decision)⟩

/-- **Every decision on the log was made by an epoch that could commit**, on a path of changes. -/
theorem Changes.exists_commit (h : Changes p c c') (new : c.log = []) {pre post : List (Entry σ)}
    {x : Moment σ} (log : c'.log = pre ++ .did x :: post) (decides : x.effect.isDecision = true) :
    ∃ c₁ proposal w, Changes p c c₁ ∧ c₁.log = pre ∧ c₁.Committing p proposal w ∧
      x = ⟨.decide c₁.machine.epoch proposal.block, w,
        some { c₁.machine with phase := .finished }⟩ := by
  induction h generalizing post with
  | refl =>
    rw [new] at log
    cases pre <;> cases log
  | @tail c₁ c₂ hpath change ih =>
    obtain ⟨ys, hlog, hcases⟩ := change.log_cases
    rw [hlog] at log
    -- the decision is on the log from before, or it is what the last change put there
    rcases append_eq_append_cons log with ⟨post', hold⟩ | ⟨zs, hpre, hys⟩
    · exact ih hold
    · have hmem : Entry.did x ∈ ys := by simp [hys]
      rcases hcases with hnone | ⟨proposal, w, committing, rfl⟩
      · have hplain := hnone _ hmem x.effect rfl
        rw [decides] at hplain
        cases hplain
      · obtain rfl : x = _ := by simpa using hmem
        obtain ⟨rfl, -⟩ : zs = [] ∧ _ := by simpa [List.singleton_eq_append_iff] using hys
        exact ⟨c₁, proposal, w, hpath, by simpa using hpre.symm, committing, rfl⟩

end Course

end EpochConsensus
