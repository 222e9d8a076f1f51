import EpochConsensus.Proofs.Epoch.FastPath
import EpochConsensus.Proofs.Replica.Outcomes

/-! # Decisions left to settle

An epoch leaves a decision to settle when its block extends the committed chain, and the host has
only answered questions since (`Host.Announced`).  A call on an epoch leaves at most one
(`Host.Left.decisions`).  A start leaves none if no message that waited for it carries a block
statement of this process (`Host.start_quiet`): to decide without waiting takes everybody's vote,
and a process does not vote before it starts.
-/
namespace EpochConsensus

variable {σ : Type}

/-- Whether what is left to settle is a decision. -/
def Outcome.isDecision : Outcome → Bool
  | decided _ _ => true
  | finished _ _ _ => false

/-- A started epoch leaves at most one decision. -/
theorem Machine.Leaves.decisions {m m' : Machine} {left : List Outcome} (h : m.Leaves m' left)
    (started : m.phase ≠ .inactive) : left.countP Outcome.isDecision ≤ 1 := by
  have hfew := h.few
  by_cases hopen : m.IsOpen
  · have htwo : m.outcomesLeft ≤ 2 := by
      unfold outcomesLeft
      split <;> omega
    by_cases hopen' : m'.IsOpen
    · rw [(h.opened hopen').2]
      exact Nat.zero_le 1
    · -- one of the two outcomes is the hand-over
      obtain ⟨valid, locked, rest, rfl, -⟩ := h.closes hopen hopen'
      rw [List.length_cons] at hfew
      have hrest : rest.countP Outcome.isDecision ≤ rest.length := List.countP_le_length
      have hcount : (Outcome.finished m.epoch valid locked :: rest).countP Outcome.isDecision =
          rest.countP Outcome.isDecision := List.countP_cons_of_neg (by simp [Outcome.isDecision])
      omega
  · have hone : m.outcomesLeft ≤ 1 := by
      unfold IsOpen at hopen
      unfold outcomesLeft
      cases hphase : m.phase <;> simp_all
    have hcount : left.countP Outcome.isDecision ≤ left.length := List.countP_le_length
    omega

namespace Host

variable {p : Host σ} {heard : Endorsement → Prop} {s s' : Step σ} {w : σ} {m : Machine}

/-- So does a call on any epoch. -/
theorem Left.decisions (h : Left m s') :
    s'.toContext.outcomes.countP Outcome.isDecision ≤ 1 := by
  by_cases hphase : m.phase = .inactive
  · rw [(h.waits hphase).2]
    exact Nat.zero_le 1
  · exact h.leaves.decisions hphase

/-! ### The host meanwhile -/

theorem evolves_asks {c c' : Context σ} (asked : p.Asks c c') : p.Evolves c.world c'.world := by
  rcases asked with rfl | ⟨t, rfl⟩
  · exact .refl
  · exact .single (.accepts t c.world)

theorem evolves_store {c c' : Context σ} {b : Block} {added : Bool}
    (h : p.store c b = .ok (added, c')) : p.Evolves c.world c'.world := by
  unfold store at h
  simp only [pure, Except.pure] at h
  obtain ⟨⟨answer, world⟩, hadd, h⟩ := bind_eq_ok.mp h
  cases h
  exact .single (.addBlock hadd)

theorem evolves_proposeSplit (h : p.proposeSplit s = .ok s') : p.Evolves s.world s'.world := by
  have hasked : p.Evolves s.world (p.takeValue (p.takeValue s.toContext).2).2.world :=
    .tail (.single (.nextValue s.world)) (.nextValue _)
  unfold proposeSplit at h
  simp only [pure, Except.pure] at h
  split at h
  · simp only [bind_eq_ok] at h
    obtain ⟨a, -, b, -, h⟩ := h
    cases h
    exact hasked
  · cases h
    exact hasked

/-- During a move the host only answers. -/
theorem Move.evolves (move : p.Move heard s s') : p.Evolves s.world s'.world := by
  cases move with
  | schedule timers asked => exact evolves_asks asked
  | refuse asked | enlist fresh valid admitted asked => exact evolves_store asked
  | expose => rw [Step.forwardAll_world]
  | split faulty done => exact evolves_proposeSplit done
  | _ => exact .refl

/-! ### Announcements -/

/-- Whatever decision is left to settle was taken, and since the host was in state `w` there was a
time when the block extended the chain. -/
structure Announced (p : Host σ) (w : σ) (s : Step σ) : Prop where
  evolved : p.Evolves w s.world
  taken : ∀ e b, Outcome.decided e b ∈ s.toContext.outcomes → s.machine.decision ≠ none
  linked : ∀ e b, Outcome.decided e b ∈ s.toContext.outcomes →
    ∃ v, p.Evolves w v ∧ p.extendsChain b v = true ∧ p.Evolves v s.world

/-- Before anything is left to settle. -/
theorem Announced.of_quiet (evolved : p.Evolves w s.world) (quiet : s.toContext.outcomes = []) :
    p.Announced w s := by
  refine ⟨evolved, ?_, ?_⟩ <;>
    · intro e b h
      rw [quiet] at h
      cases h

/-- No move takes a decision back. -/
theorem Move.decision (move : p.Move heard s s') (h : s.machine.decision ≠ none) :
    s'.machine.decision ≠ none := by
  cases move with
  | @enlist proposal =>
    obtain ⟨proposals, heq⟩ := enlist_eq s.machine proposal
    rw [heq]
    exact h
  | expose =>
    rw [Step.forwardAll_machine]
    exact h
  | decide => exact Option.some_ne_none _
  | split faulty done =>
    rw [proposeSplit_machine done]
    exact h
  | _ => exact h

/-- A decision is left to settle only once it is taken and its block extends the chain. -/
theorem Move.announces (move : p.Move heard s s') {e : Epoch} {b : Block}
    (h : Outcome.decided e b ∈ s'.toContext.outcomes) :
    Outcome.decided e b ∈ s.toContext.outcomes ∨
      s'.machine.decision ≠ none ∧ p.extendsChain b s'.world = true := by
  cases move with
  | schedule timers asked => exact .inl (outcomes_asks asked ▸ h)
  | refuse asked | enlist fresh valid admitted asked => exact .inl (outcomes_store asked ▸ h)
  | expose =>
    rw [Step.outcomes_forwardAll] at h
    exact .inl h
  | split faulty done => exact .inl (outcomes_proposeSplit done ▸ h)
  | @commit key proposal phase decided found linked =>
    rcases List.mem_append.mp (Step.outcomes_emit _ _ ▸ h) with hold | hnew
    · exact .inl hold
    · obtain ⟨rfl, rfl⟩ : e = s.machine.epoch ∧ b = proposal.block := by
        simpa [Outcome.ofEffect?, Step.enter] using hnew
      refine .inr ⟨?_, linked⟩
      show s.machine.decision ≠ none
      rw [decided]
      exact Option.some_ne_none _
  | relay | lock | pass | cast | leave | accuse | quit =>
    exact .inl (by simpa [Host.cast, Outcome.ofEffect?, Step.enter] using h)
  | count | decide | follow | blame | abandon | expire => exact .inl h

theorem Move.announced (move : p.Move heard s s') (h : p.Announced w s) : p.Announced w s' := by
  have hevolved : p.Evolves w s'.world := h.evolved.trans move.evolves
  refine ⟨hevolved, ?_, ?_⟩
  · intro e b hb
    rcases move.announces hb with hold | ⟨htaken, -⟩
    · exact move.decision (h.taken e b hold)
    · exact htaken
  · intro e b hb
    rcases move.announces hb with hold | ⟨-, hlinked⟩
    · obtain ⟨v, hv, hlinked, hrest⟩ := h.linked e b hold
      exact ⟨v, hv, hlinked, hrest.trans move.evolves⟩
    · exact ⟨s'.world, hevolved, hlinked, .refl⟩

theorem Moves.announced (moves : p.Moves heard s s') (h : p.Announced w s) : p.Announced w s' := by
  induction moves with
  | refl => exact h
  | tail _ move ih => exact move.announced ih

/-! ### Calls -/

theorem announced_start (w : σ) (m : Machine) : p.Announced w ⟨.start w, m⟩ :=
  .of_quiet .refl (Context.outcomes_start w)

theorem receive_announced (hm : p.Sound heard m) {x : Message} (admitted : x.CarriesOnly heard)
    (h : p.receive x ⟨.start w, m⟩ = .ok s') : p.Announced w s' := by
  by_cases hphase : m.phase = .inactive
  · obtain rfl := receive_inactive (s := ⟨.start w, m⟩) hphase h
    obtain ⟨pending, heq, -⟩ := keep_eq x ⟨.start w, m⟩
    rw [heq]
    exact .of_quiet .refl (Context.outcomes_start w)
  · exact Moves.announced (receive_moves ⟨hphase, hm⟩ admitted h) (announced_start w m)

theorem expire_announced {t : Timeout} (h : p.expire t ⟨.start w, m⟩ = .ok s') :
    p.Announced w s' := by
  have hmoves : p.Moves (fun _ => True) ⟨.start w, m⟩ s' := expire_moves h
  exact Moves.announced hmoves (announced_start w m)

theorem start_announced (hm : p.Sound heard m) (inactive : m.phase = .inactive)
    {valid locked : Option Certificate} (hvalid : ∀ c ∈ valid, c.CarriesOnly heard)
    (hlocked : ∀ c ∈ locked, c.CarriesOnly heard)
    (h : p.start valid locked ⟨.start w, m⟩ = .ok s') : p.Announced w s' := by
  rcases start_cases (s := ⟨.start w, m⟩) inactive h with ⟨-, rfl⟩ | ⟨b, hb, hrest⟩
  · exact .of_quiet .refl (Context.outcomes_start w)
  · have hbegun : p.Logged w (fun _ => True) b.toContext := begin_logged .start trivial rfl hb
    have hquiet : b.toContext.outcomes = [] :=
      (outcomes_begin hb).trans (Context.outcomes_start w)
    exact Moves.announced (start_moves (hm.begun hvalid hlocked hb) hm.pending hrest)
      (.of_quiet hbegun.world hquiet)

/-! ### Starts without a decision -/

/-- A signature of one of the processes. -/
def Member (p : Host σ) (x : Endorsement) : Prop := x.signer.toNat < p.count

/-- A signature of one of the processes, but not of this one on a block of the epoch. -/
def Foreign (p : Host σ) (e : Epoch) (x : Endorsement) : Prop :=
  p.Member x ∧ (x.signer = p.id → x.statement.isBlock = true → x.statement.epoch ≠ e)

/-- An epoch that has heard no block statement of this process about itself. -/
structure Hushed (p : Host σ) (m : Machine) : Prop where
  sound : p.Sound (p.Foreign m.epoch) m
  tied : p.Tied m.policy m.epoch m
  undecided : m.decision = none

theorem hushed_create (p : Host σ) (e : Epoch) (policy : Policy) (pendingLimit : Nat) :
    p.Hushed (.create e policy pendingLimit) where
  sound := Instance.sound_create ⟨.sync, policy, pendingLimit⟩ e
  tied := Course.tied_create p e policy pendingLimit
  undecided := rfl

theorem Hushed.keep (h : p.Hushed s.machine) (honest : s.machine.policy.isHonest = true)
    {x : Message} (admitted : x.CarriesOnly (p.Foreign s.machine.epoch)) :
    p.Hushed (keep x s).machine := by
  have hsound := h.sound.keep admitted
  have htied := h.tied.keep (x := x) fun _ _ => .inl honest
  obtain ⟨pending, heq, -⟩ := keep_eq x s
  rw [heq] at hsound htied ⊢
  exact ⟨hsound, htied, h.undecided⟩

/-- Without its vote nobody has everybody's. -/
theorem not_unanimous {e : Epoch} (hs : p.Sound (p.Foreign e) m) (epoch : m.epoch = e)
    (member : p.id.toNat < p.count) : ¬ p.Unanimous m := by
  rintro ⟨c, hc, hall⟩
  obtain ⟨⟨height, id, hstatement⟩, hcarries⟩ := hs.votes c hc
  have hforeign : ∀ i, c.signedBy i = true → ∃ signature,
      p.Foreign e ⟨i, c.statement, signature⟩ := by
    intro i hi
    obtain ⟨x, hx, rfl⟩ := List.mem_map.mp (c.signatures.mem_processes.mpr hi)
    exact ⟨x.2, hcarries _ (List.mem_map.mpr ⟨x, hx, rfl⟩)⟩
  have hown := c.signedBy_of_count hall (fun i hi => (hforeign i hi).choose_spec.1) member
  obtain ⟨signature, -, hother⟩ := hforeign p.id hown
  refine hother rfl ?_ ?_
  · rw [hstatement]
    rfl
  · rw [hstatement]
    exact epoch

/-- **The start of an epoch that is hushed leaves no decision to settle.** -/
theorem start_quiet (hm : p.Hushed m) (inactive : m.phase = .inactive)
    (member : p.id.toNat < p.count) {valid locked : Option Certificate}
    (hvalid : ∀ c ∈ valid, c.CarriesOnly (p.Foreign m.epoch))
    (hlocked : ∀ c ∈ locked, c.CarriesOnly (p.Foreign m.epoch))
    (h : p.start valid locked ⟨.start w, m⟩ = .ok s') :
    s'.toContext.outcomes.countP Outcome.isDecision = 0 := by
  have hsane := start_sane hm.sound hvalid hlocked h
  have hannounced := start_announced hm.sound inactive hvalid hlocked h
  have hweak : p.Sound (fun _ => True) m := hm.sound.mono fun _ _ => trivial
  rw [List.countP_eq_zero]
  intro o ho hdecision
  cases o with
  | finished => cases hdecision
  | decided e b =>
    have htaken := hannounced.taken e b ho
    rcases (start_tied (s := ⟨.start w, m⟩) hm.tied hweak h).2 hm.undecided with hnone | hhasty
    · exact htaken hnone
    · exact not_unanimous hsane.sound hsane.epoch member hhasty.2

end Host

end EpochConsensus
