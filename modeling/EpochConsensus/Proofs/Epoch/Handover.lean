import EpochConsensus.Proofs.Epoch.Acts

/-! # What an honest epoch holds

An honest epoch is started with the highest certificate known and with a lock.  Until it sees a
majority vote for a block it holds just these; then it locks the new certificate, or passes it on
without locking it once the proposer has failed.  So what it hands over to the next epoch is one of
three things (`Handover`), which the next epoch may be started with (`Handover.inherits`), and it is
`Faithful` to its start after every move (`Move.faithful`).
-/
namespace EpochConsensus

namespace Carried

/-- Each of the two certificates ranks at least as high as the one carried before. -/
structure RanksAtLeast (c d : Carried) : Prop where
  valid : Certificate.ranksAtLeast c.valid d.valid = true
  locked : Certificate.ranksAtLeast c.locked d.locked = true

theorem RanksAtLeast.refl (c : Carried) : c.RanksAtLeast c :=
  ⟨Certificate.ranksAtLeast_refl _, Certificate.ranksAtLeast_refl _⟩

theorem RanksAtLeast.trans {a b c : Carried} (hab : a.RanksAtLeast b) (hbc : b.RanksAtLeast c) :
    a.RanksAtLeast c :=
  ⟨Certificate.ranksAtLeast_trans hab.valid hbc.valid,
    Certificate.ranksAtLeast_trans hab.locked hbc.locked⟩

end Carried

namespace Host

variable {σ : Type} (p : Host σ) (heard : Endorsement → Prop)

/-- A majority has voted for one block in the epoch, and all the votes were heard. -/
structure Certifies (e : Epoch) (c : Certificate) : Prop where
  block : ∃ height id, c.statement = ⟨e, .block height id⟩
  quorum : c.hasQuorum p.count = true
  heard : c.CarriesOnly heard

/-- A majority has voted for one block in an epoch before `e`. -/
def CertifiesBefore (e : Epoch) (c : Certificate) : Prop := ∃ d < e, p.Certifies heard d c

/-- What an epoch may be started with. -/
structure Inherits (e : Epoch) (c : Carried) : Prop where
  valid : ∀ x ∈ c.valid, p.CertifiesBefore heard e x
  locked : ∀ x ∈ c.locked, p.CertifiesBefore heard e x
  ranks : Certificate.ranksAtLeast c.valid c.locked = true

/-- What an epoch hands over that was started with `start`. -/
inductive Handover (start : Carried) (e : Epoch) : Carried → Prop
  | locked {c : Certificate} (h : p.Certifies heard e c) : Handover start e ⟨some c, some c⟩
  /-- The proposer has failed: the certificate is passed on, and the lock stays. -/
  | passed {c : Certificate} (h : p.Certifies heard e c) : Handover start e ⟨some c, start.locked⟩
  | unchanged : Handover start e start

/-- The certificates that an epoch holds, by its phase. -/
structure Holding (start : Carried) (m : Machine) : Prop where
  handover : p.Handover heard start m.epoch ⟨m.valid, m.locked⟩
  waiting : m.phase = .ready ∨ m.phase = .epochChange →
    m.valid = start.valid ∧ m.locked = start.locked
  lock : m.phase = .locked → ∃ c, p.Certifies heard m.epoch c ∧ m.locked = some c

/-- An honest epoch that was started with `start`. -/
structure Faithful (start : Carried) (m : Machine) : Prop where
  started : m.phase ≠ .inactive
  honest : m.policy.isHonest = true
  sound : p.Sound heard m
  initial : m.initialLocked = start.locked
  holding : p.Holding heard start m

variable {p heard} {start : Carried} {d e : Epoch}

/-! ### Certificates that are carried -/

theorem Certifies.epoch {c : Certificate} (h : p.Certifies heard e c) : c.epoch = e := by
  obtain ⟨height, id, hc⟩ := h.block
  unfold Certificate.epoch
  rw [hc]

theorem Certifies.before {c : Certificate} (h : p.Certifies heard d c) (hlt : d < e) :
    p.CertifiesBefore heard e c := ⟨d, hlt, h⟩

theorem CertifiesBefore.mono {c : Certificate} (h : p.CertifiesBefore heard d c) (hlt : d < e) :
    p.CertifiesBefore heard e c := by
  obtain ⟨b, hb, hc⟩ := h
  exact ⟨b, UInt64.lt_trans hb hlt, hc⟩

/-- A certificate of an epoch ranks above everything that the epoch was started with. -/
theorem Certifies.ranks {c : Certificate} (h : p.Certifies heard d c) {x : Option Certificate}
    (hx : ∀ y ∈ x, p.CertifiesBefore heard d y) :
    Certificate.ranksAtLeast (some c) x = true := by
  cases x with
  | none => rfl
  | some y =>
    obtain ⟨b, hb, hy⟩ := hx y rfl
    simp only [Certificate.ranksAtLeast, decide_eq_true_eq]
    rw [h.epoch, hy.epoch]
    exact UInt64.le_of_lt hb

/-- **What an epoch hands over its successor may be started with**, and neither certificate ever
falls back. -/
theorem Handover.inherits {start next : Carried} (h : p.Handover heard start d next)
    (hs : p.Inherits heard d start) (hlt : d < e) :
    p.Inherits heard e next ∧ next.RanksAtLeast start := by
  have hvalid : ∀ x ∈ start.valid, p.CertifiesBefore heard e x :=
    fun x hx => (hs.valid x hx).mono hlt
  have hlocked : ∀ x ∈ start.locked, p.CertifiesBefore heard e x :=
    fun x hx => (hs.locked x hx).mono hlt
  cases h with
  | locked hc =>
    refine ⟨⟨?_, ?_, Certificate.ranksAtLeast_refl _⟩, hc.ranks hs.valid, hc.ranks hs.locked⟩ <;>
      · rintro _ ⟨⟩
        exact hc.before hlt
  | passed hc =>
    refine ⟨⟨?_, hlocked, hc.ranks hs.locked⟩, hc.ranks hs.valid, Certificate.ranksAtLeast_refl _⟩
    rintro _ ⟨⟩
    exact hc.before hlt
  | unchanged => exact ⟨⟨hvalid, hlocked, hs.ranks⟩, .refl _⟩

/-- A lock of the epoch itself is certified in it; one that it was started with is not of it. -/
theorem Handover.certifies {start next : Carried} (h : p.Handover heard start e next)
    (hs : p.Inherits heard e start) {c : Certificate} (locked : next.locked = some c)
    (own : c.epoch = e) : p.Certifies heard e c := by
  have hstart : start.locked ≠ some c := by
    intro hc
    -- what the epoch was started with is of an earlier epoch
    obtain ⟨d, hd, hcertifies⟩ := hs.locked c hc
    rw [← own, hcertifies.epoch] at hd
    exact UInt64.lt_irrefl d hd
  cases h with
  | @locked c' hc =>
    obtain rfl : c' = c := Option.some.inj locked
    exact hc
  | passed => exact absurd locked hstart
  | unchanged => exact absurd locked hstart

/-! ### Moves -/

/-- A majority among the votes counted in a sound epoch certifies its block. -/
theorem Sound.certifies {m : Machine} (hs : p.Sound heard m) {c : Certificate}
    (counted : c ∈ m.votes.toList) (quorum : c.hasQuorum p.count = true) :
    p.Certifies heard m.epoch c :=
  ⟨(hs.votes c counted).1, quorum, (hs.votes c counted).2⟩

variable {s s' : Step σ}

theorem Move.holding (move : p.Move heard s s') (honest : s.machine.policy.isHonest = true)
    (sound : p.Sound heard s.machine) (h : p.Holding heard start s.machine) :
    p.Holding heard start s'.machine := by
  cases move with
  | @enlist proposal =>
    obtain ⟨proposals, heq⟩ := enlist_eq s.machine proposal
    rw [heq]
    exact { h with }
  | expose =>
    rw [Step.forwardAll_machine]
    refine ⟨h.handover, ?_, ?_⟩
    · -- an epoch that leaves with its proposer exposed held no certificate of its own
      intro hphase
      apply h.waiting
      cases hold : s.machine.phase <;> simp [hold, Phase.exposed] at hphase ⊢
    · intro hphase
      cases hold : s.machine.phase <;> simp [hold, Phase.exposed] at hphase
  | lock phase counted quorum =>
    have hc := sound.certifies counted quorum
    exact ⟨.locked hc, by simp, fun _ => ⟨_, hc, rfl⟩⟩
  | pass phase counted quorum lock =>
    subst lock
    rw [honest]
    -- until here the lock is the one of the start
    have hlocked := (h.waiting (.inr phase)).2
    refine ⟨?_, by simp, by simp⟩
    show p.Handover heard start s.machine.epoch ⟨some _, s.machine.locked⟩
    rw [hlocked]
    exact .passed (sound.certifies counted quorum)
  | decide => exact ⟨h.handover, by simp, by simp⟩
  | commit => exact ⟨h.handover, by simp [Step.enter], by simp [Step.enter]⟩
  | follow faulty => rw [honest] at faulty; cases faulty
  | leave phase => exact ⟨h.handover, fun _ => h.waiting (.inl phase), by simp [Step.enter]⟩
  | abandon => exact ⟨h.handover, by simp [Step.enter], by simp [Step.enter]⟩
  | quit => exact ⟨h.handover, by simp [Step.enter], by simp [Step.enter]⟩
  | split faulty done =>
    rw [proposeSplit_machine done]
    exact h
  | _ => exact { h with }

/-- **Every move leaves an honest epoch faithful to its start.** -/
theorem Move.faithful (move : p.Move heard s s') (h : p.Faithful heard start s.machine) :
    p.Faithful heard start s'.machine := by
  obtain ⟨hstarted, hsound⟩ := move.running ⟨h.started, h.sound⟩
  have hfixed := move.fixed
  exact ⟨hstarted, hfixed.policy ▸ h.honest, hsound, hfixed.initialLocked.trans h.initial,
    move.holding h.honest h.sound h.holding⟩

/-- An epoch is faithful as it starts. -/
theorem Sound.faithful_opened {m : Machine} (hs : p.Sound heard m)
    (honest : m.policy.isHonest = true) (hvalid : ∀ c ∈ start.valid, c.CarriesOnly heard)
    (hlocked : ∀ c ∈ start.locked, c.CarriesOnly heard) :
    p.Faithful heard start (m.opened start.valid start.locked) where
  started := by simp [Machine.opened]
  honest := honest
  sound := hs.opened hvalid hlocked
  initial := rfl
  holding := ⟨.unchanged, fun _ => ⟨rfl, rfl⟩, by simp [Machine.opened]⟩

end Host

end EpochConsensus
