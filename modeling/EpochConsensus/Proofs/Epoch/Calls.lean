import EpochConsensus.Epoch.Instance
import EpochConsensus.Proofs.Epoch.Handover
import EpochConsensus.Proofs.Epoch.Signing

/-! # Calls on an epoch

What one call makes of an epoch.  A call leaves any epoch `Sane`: it stays sound, and all that it
did is on record.  A call leaves an honest epoch that has started `Served` besides: it is still
faithful to its start, and it has signed no more than it could (`receive_served`, `expire_served`,
`start_served`).  An epoch that has not started or is finished does nothing.
-/
namespace EpochConsensus.Host

variable {σ : Type} (p : Host σ) (heard : Endorsement → Prop)

/-- What a call on `m` came to, with the host in state `w` before. -/
structure Sane (w : σ) (m : Machine) (s' : Step σ) : Prop where
  epoch : s'.machine.epoch = m.epoch
  sound : p.Sound heard s'.machine
  logged : p.Logged w (fun _ => True) s'.toContext

/-- What a call on the honest epoch `m` came to, which was started with `start` and could sign up
to `allowed` block statements. -/
structure Served (w : σ) (start : Carried) (m : Machine) (allowed : Nat) (s' : Step σ) :
    Prop where
  faithful : p.Faithful heard start s'.machine
  epoch : s'.machine.epoch = m.epoch
  logged : p.Logged w (fun x => p.Faithful heard start x ∧ x.epoch = m.epoch) s'.toContext
  signing : s'.toContext.blocksSigned p.id + p.signaturesLeft s'.machine ≤ allowed

/-- An honest epoch that has not started. -/
structure Waiting (m : Machine) : Prop where
  inactive : m.phase = .inactive
  honest : m.policy.isHonest = true
  sound : p.Sound heard m

variable {p heard} {w : σ} {start : Carried} {m : Machine} {s s' : Step σ}

/-! ### Epochs that do nothing -/

/-- Before it starts an epoch keeps what it receives. -/
theorem receive_inactive (inactive : s.machine.phase = .inactive) {x : Message}
    (h : p.receive x s = .ok s') : s' = keep x s := by
  unfold receive at h
  rw [if_pos inactive] at h
  exact (Except.ok.inj h).symm

/-- A finished epoch receives nothing any more. -/
theorem receive_of_finished (finished : s.machine.phase = .finished) (x : Message) :
    p.receive x s = .ok s := by
  unfold receive whileActive
  rw [if_neg (by simp [finished]), if_pos (by simp [finished])]

theorem receive_finished (finished : s.machine.phase = .finished) {x : Message}
    (h : p.receive x s = .ok s') : s' = s := by
  rw [receive_of_finished finished] at h
  exact (Except.ok.inj h).symm

/-- Timeouts reach an epoch only between its start and its end. -/
theorem expire_of_idle (idle : s.machine.phase = .inactive ∨ s.machine.phase = .finished)
    (t : Timeout) : p.expire t s = .ok s := by
  unfold expire
  rw [if_pos (by rcases idle with h | h <;> simp [h])]

theorem expire_idle (idle : s.machine.phase = .inactive ∨ s.machine.phase = .finished)
    {t : Timeout} (h : p.expire t s = .ok s') : s' = s := by
  rw [expire_of_idle idle] at h
  exact (Except.ok.inj h).symm

theorem keep_eq (x : Message) (s : Step σ) :
    ∃ pending, keep x s = { s with machine.pending := pending } ∧
      ∀ y ∈ pending, y ∈ s.machine.pending ∨ y = x := by
  unfold keep
  split
  · refine ⟨_, rfl, ?_⟩
    intro y hy
    simpa using hy
  · exact ⟨s.machine.pending, rfl, fun y hy => .inl hy⟩

theorem Sound.keep (hs : p.Sound heard s.machine) {x : Message} (admitted : x.CarriesOnly heard) :
    p.Sound heard (Host.keep x s).machine := by
  obtain ⟨pending, heq, hpending⟩ := keep_eq x s
  rw [heq]
  refine { hs with pending := ?_ }
  intro y hy
  rcases hpending y hy with hold | rfl
  · exact hs.pending y hold
  · exact admitted

/-- Keeping a message leaves an honest epoch waiting, and does nothing else. -/
theorem Waiting.receive (hm : p.Waiting heard m) {x : Message} (admitted : x.CarriesOnly heard)
    {c : Context σ} (h : p.receive x ⟨c, m⟩ = .ok s') :
    p.Waiting heard s'.machine ∧ s'.machine.epoch = m.epoch ∧ s'.toContext = c := by
  obtain rfl := receive_inactive (s := ⟨c, m⟩) hm.inactive h
  have hsound := Sound.keep (s := ⟨c, m⟩) hm.sound admitted
  obtain ⟨pending, heq, -⟩ := keep_eq x ⟨c, m⟩
  rw [heq] at hsound ⊢
  exact ⟨⟨hm.inactive, hm.honest, hsound⟩, rfl, rfl⟩

/-! ### Any epoch -/

theorem Sane.of_moves (hs : p.Running heard s) (epoch : s.machine.epoch = m.epoch)
    (hlogged : p.Logged w (fun _ => True) s.toContext) (h : p.Moves heard s s') :
    p.Sane heard w m s' where
  epoch := (Moves.fixed h).epoch.trans epoch
  sound := (Moves.running h hs).sound
  logged := (Moves.logged (fun _ _ _ _ => trivial) h hlogged trivial).1

/-- A call that does nothing. -/
theorem Sane.idle (hm : p.Sound heard m) : p.Sane heard w m ⟨.start w, m⟩ := ⟨rfl, hm, .start⟩

/-- What a call does up to any point leaves a started epoch sane. -/
theorem moves_sane (started : m.phase ≠ .inactive) (hm : p.Sound heard m)
    (h : p.Moves heard ⟨.start w, m⟩ s') : p.Sane heard w m s' :=
  .of_moves ⟨started, hm⟩ rfl .start h

theorem receive_sane (hm : p.Sound heard m) {x : Message} (admitted : x.CarriesOnly heard)
    (h : p.receive x ⟨.start w, m⟩ = .ok s') : p.Sane heard w m s' := by
  -- before the start a message is only kept; afterwards the call is a path of moves
  by_cases hphase : m.phase = .inactive
  · obtain rfl := receive_inactive (s := ⟨.start w, m⟩) hphase h
    have hsound := Sound.keep (s := ⟨.start w, m⟩) hm admitted
    obtain ⟨pending, heq, -⟩ := keep_eq x ⟨.start w, m⟩
    rw [heq] at hsound ⊢
    exact ⟨rfl, hsound, .start⟩
  · exact moves_sane hphase hm (receive_moves ⟨hphase, hm⟩ admitted h)

theorem expire_sane (hm : p.Sound heard m) {t : Timeout}
    (h : p.expire t ⟨.start w, m⟩ = .ok s') : p.Sane heard w m s' := by
  by_cases hphase : m.phase = .inactive
  · obtain rfl := expire_idle (s := ⟨.start w, m⟩) (.inl hphase) h
    exact .idle hm
  · exact moves_sane hphase hm (expire_moves h)

/-- Whatever an epoch does once it has begun leaves it sane. -/
theorem begun_sane (hm : p.Sound heard m) {valid locked : Option Certificate}
    (hvalid : ∀ c ∈ valid, c.CarriesOnly heard) (hlocked : ∀ c ∈ locked, c.CarriesOnly heard)
    {b : Step σ} (hb : p.begin ⟨.start w, m.opened valid locked⟩ = .ok b)
    (h : p.Moves heard { b with machine.pending := [] } s') : p.Sane heard w m s' := by
  obtain ⟨timers, heq⟩ := begin_machine hb
  have hlogged : p.Logged w (fun _ => True) b.toContext := begin_logged .start trivial rfl hb
  exact .of_moves (hm.begun hvalid hlocked hb) (by simp [heq, Machine.opened]) hlogged h

theorem start_sane (hm : p.Sound heard m) {valid locked : Option Certificate}
    (hvalid : ∀ c ∈ valid, c.CarriesOnly heard) (hlocked : ∀ c ∈ locked, c.CarriesOnly heard)
    (h : p.start valid locked ⟨.start w, m⟩ = .ok s') : p.Sane heard w m s' := by
  by_cases hphase : m.phase = .inactive
  · rcases start_cases (s := ⟨.start w, m⟩) hphase h with ⟨-, rfl⟩ | ⟨b, hb, hrest⟩
    · have hopened := hm.opened hvalid hlocked
      exact ⟨rfl, { hopened with pending := by simp }, .start⟩
    · have hrunning := hm.begun hvalid hlocked hb
      exact begun_sane hm hvalid hlocked hb (start_moves hrunning hm.pending hrest)
  · unfold Host.start at h
    rw [if_pos (by simp [Machine.started, hphase])] at h
    cases h
    exact .idle hm

/-! ### Honest epochs -/

/-- A path of moves serves an honest epoch. -/
theorem Served.of_moves {allowed : Nat} (hs : p.Faithful heard start s.machine)
    (epoch : s.machine.epoch = m.epoch)
    (hlogged : p.Logged w (fun x => p.Faithful heard start x ∧ x.epoch = m.epoch) s.toContext)
    (hsigned : s.toContext.blocksSigned p.id + p.signaturesLeft s.machine ≤ allowed)
    (h : p.Moves heard s s') : p.Served heard w start m allowed s' := by
  have hkeeps : ∀ t t', p.Move heard t t' →
      p.Faithful heard start t.machine ∧ t.machine.epoch = m.epoch →
      p.Faithful heard start t'.machine ∧ t'.machine.epoch = m.epoch := by
    intro t t' move ⟨hfaithful, hepoch⟩
    exact ⟨move.faithful hfaithful, move.fixed.epoch.trans hepoch⟩
  obtain ⟨hlogged', hfaithful, hepoch⟩ := Moves.logged hkeeps h hlogged ⟨hs, epoch⟩
  exact ⟨hfaithful, hepoch, hlogged', Nat.le_trans (Moves.signing h hs.honest) hsigned⟩

/-- **What a call does up to any point leaves an honest epoch served.** -/
theorem moves_served (hm : p.Faithful heard start m) (h : p.Moves heard ⟨.start w, m⟩ s') :
    p.Served heard w start m (p.signaturesLeft m) s' :=
  .of_moves hm rfl .start (Nat.le_of_eq (Nat.zero_add _)) h

/-- **So does a message.** -/
theorem receive_served (hm : p.Faithful heard start m) {x : Message}
    (admitted : x.CarriesOnly heard) (h : p.receive x ⟨.start w, m⟩ = .ok s') :
    p.Served heard w start m (p.signaturesLeft m) s' :=
  moves_served hm (receive_moves ⟨hm.started, hm.sound⟩ admitted h)

/-- **So does a timeout.** -/
theorem expire_served (hm : p.Faithful heard start m) {t : Timeout}
    (h : p.expire t ⟨.start w, m⟩ = .ok s') :
    p.Served heard w start m (p.signaturesLeft m) s' :=
  moves_served hm (expire_moves h)

/-- **Whatever an honest epoch does once it has begun leaves it served, and it may sign one block
statement from its start on.** -/
theorem begun_served (hm : p.Waiting heard m) (hvalid : ∀ c ∈ start.valid, c.CarriesOnly heard)
    (hlocked : ∀ c ∈ start.locked, c.CarriesOnly heard) {b : Step σ}
    (hb : p.begin ⟨.start w, m.opened start.valid start.locked⟩ = .ok b)
    (h : p.Moves heard { b with machine.pending := [] } s') : p.Served heard w start m 1 s' := by
  have hrunning := hm.sound.begun hvalid hlocked hb
  obtain ⟨timers, heq⟩ := begin_machine hb
  have hopened : p.Faithful heard start (m.opened start.valid start.locked) :=
    hm.sound.faithful_opened hm.honest hvalid hlocked
  have hlogged : p.Logged w (fun x => p.Faithful heard start x ∧ x.epoch = m.epoch) b.toContext :=
    begin_logged .start ⟨hopened, rfl⟩ rfl hb
  have hsigning : b.toContext.blocksSigned p.id + p.signaturesLeft b.machine ≤ 1 := by
    have hbegun := begin_signing hopened.honest hb
    -- the call has signed nothing before it begins
    rwa [show (Context.start w).blocksSigned p.id = 0 from rfl, Nat.zero_add] at hbegun
  refine .of_moves ⟨hrunning.started, ?_, hrunning.sound, ?_, ?_⟩ ?_ hlogged hsigning h
  · simpa [heq] using hopened.honest
  · simpa [heq] using hopened.initial
  · rw [heq]
    exact { hopened.holding with }
  · simp [heq, Machine.opened]

/-- **So does a start.** -/
theorem start_served (hm : p.Waiting heard m) (hvalid : ∀ c ∈ start.valid, c.CarriesOnly heard)
    (hlocked : ∀ c ∈ start.locked, c.CarriesOnly heard)
    (h : p.start start.valid start.locked ⟨.start w, m⟩ = .ok s') :
    p.Served heard w start m 1 s' := by
  rcases start_cases (s := ⟨.start w, m⟩) hm.inactive h with ⟨silent, -⟩ | ⟨b, hb, hrest⟩
  · rw [Policy.isSilent_eq_false hm.honest] at silent
    cases silent
  have hrunning := hm.sound.begun hvalid hlocked hb
  exact begun_served hm hvalid hlocked hb (start_moves hrunning hm.sound.pending hrest)

end EpochConsensus.Host

/-! ### Instances -/

namespace EpochConsensus.Instance

variable {σ : Type} {p : Host σ} {heard : Endorsement → Prop} {w : σ} {inst inst' : Instance}
  {c : Context σ}

/-- What an instance holds is sound, if it is an epoch of consensus. -/
def Sound (p : Host σ) (heard : Endorsement → Prop) : Instance → Prop
  | consensus m => p.Sound heard m
  | probe _ => True

/-- A call on an instance leaves its epoch and its soundness; the host only answers. -/
structure Sane (p : Host σ) (heard : Endorsement → Prop) (w : σ) (inst inst' : Instance)
    (c : Context σ) : Prop where
  epoch : inst'.epoch = inst.epoch
  sound : inst'.Sound p heard
  world : p.Evolves w c.world

/-- What a call on a machine came to is what the call on its instance came to. -/
theorem sane_consensus {m : Machine} {s' : Step σ} (h : p.Sane heard w m s') :
    Sane p heard w (consensus m) (consensus s'.machine) s'.toContext :=
  ⟨h.epoch, h.sound, h.logged.world⟩

/-- A call on an epoch is a call on its machine. -/
theorem ofStep_eq_ok {r : Except Fault (Step σ)} (h : ofStep r = .ok (inst, c)) :
    ∃ s', r = .ok s' ∧ inst = consensus s'.machine ∧ c = s'.toContext := by
  unfold ofStep at h
  simp only [pure, Except.pure] at h
  obtain ⟨s', hr, h⟩ := bind_eq_ok.mp h
  cases h
  exact ⟨s', hr, rfl, rfl⟩

theorem sane_ofStep {m : Machine} {r : Except Fault (Step σ)}
    (h : ofStep r = .ok (inst', c)) (call : ∀ s', r = .ok s' → p.Sane heard w m s') :
    Sane p heard w (consensus m) inst' c := by
  obtain ⟨s', hr, rfl, rfl⟩ := ofStep_eq_ok h
  exact sane_consensus (call s' hr)

theorem evolves_request (q : ProcessId) :
    p.Evolves w (Probe.request p q (.start w)).world := .single (.nextValue w)

theorem receive_sane (hs : inst.Sound p heard) {x : Message} (admitted : x.CarriesOnly heard)
    (h : inst.receive p x (.start w) = .ok (inst', c)) : Sane p heard w inst inst' c := by
  cases inst with
  | consensus m => exact sane_ofStep h fun s' hs' => Host.receive_sane hs admitted hs'
  | probe b =>
    unfold receive at h
    simp only [pure, Except.pure] at h
    obtain ⟨c', hc', h⟩ := bind_eq_ok.mp h
    cases h
    refine ⟨rfl, trivial, ?_⟩
    unfold Probe.receive at hc'
    simp only [pure, Except.pure] at hc'
    split at hc'
    · cases hc'
      exact .refl
    · obtain ⟨next, -, hc'⟩ := bind_eq_ok.mp hc'
      cases hc'
      exact evolves_request _
    · cases hc'
      exact .refl

theorem expire_sane (hs : inst.Sound p heard) {t : Timeout}
    (h : inst.expire p t (.start w) = .ok (inst', c)) : Sane p heard w inst inst' c := by
  cases inst with
  | consensus m => exact sane_ofStep h fun s' hs' => Host.expire_sane hs hs'
  | probe b =>
    cases h
    exact ⟨rfl, trivial, .refl⟩

theorem start_sane (hs : inst.Sound p heard) {valid locked : Option Certificate}
    (hvalid : ∀ c ∈ valid, c.CarriesOnly heard) (hlocked : ∀ c ∈ locked, c.CarriesOnly heard)
    (h : inst.start p valid locked (.start w) = .ok (inst', c)) :
    Sane p heard w inst inst' c := by
  cases inst with
  | consensus m => exact sane_ofStep h fun s' hs' => Host.start_sane hs hvalid hlocked hs'
  | probe b =>
    cases h
    exact ⟨rfl, trivial, evolves_request _⟩

theorem sound_stop (hs : inst.Sound p heard) : inst.stop.Sound p heard := by
  cases inst with
  | consensus m => exact { hs with }
  | probe b => trivial

/-- A new instance holds nothing. -/
theorem sound_create (f : Factory) (e : Epoch) : (f.create e).Sound p heard := by
  unfold Factory.create
  split
  · refine ⟨?_, ?_, ?_, ⟨rfl, ?_⟩, ?_, ?_⟩ <;> intro x hx <;> cases hx
  · trivial

end EpochConsensus.Instance
