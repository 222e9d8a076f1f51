import EpochConsensus.Proofs.Epoch.Calls

/-! # What an epoch passes on

An epoch passes on what others have signed in other shapes than it was received in: a proposal as a
vote, votes as a certificate, a certificate as votes.  Whatever the shape, each signature in it was
heard (`Effect.Relays`), since it comes from a message just received or from what a sound epoch
holds.  Every move keeps this (`Move.relays`), and so does every call.
-/
namespace EpochConsensus

/-- A certificate's ballot of one process is one of its ballots. -/
theorem Certificate.mem_ballots {c : Certificate} {process : ProcessId} {b : Ballot}
    (h : c.ballot? process = some b) : b ∈ c.ballots := by
  unfold ballot? signature? Roster.get? at h
  simp only [Option.map_map, Option.map_eq_some_iff] at h
  obtain ⟨e, hfound, rfl⟩ := h
  obtain rfl : e.1 = process := by simpa using List.find?_some hfound
  exact List.mem_map.mpr ⟨e, List.mem_of_find?_eq_some hfound, rfl⟩

/-- The signatures of others in what is passed on were heard. -/
def Effect.Relays (heard : Endorsement → Prop) : Effect → Prop
  | forward m => m.CarriesOnly heard
  | broadcast (.quitEpoch c) => c.CarriesOnly heard
  | _ => True

/-- A call has only passed on signatures that were heard. -/
def Context.Relays {σ : Type} (heard : Endorsement → Prop) (c : Context σ) : Prop :=
  ∀ x ∈ c.moments, x.effect.Relays heard

namespace Host

variable {σ : Type} {p : Host σ} {heard : Endorsement → Prop} {c c' : Context σ} {s s' : Step σ}

/-! ### What moves are made of -/

theorem relays_start (w : σ) : (Context.start w).Relays heard := by
  simp [Context.Relays, Context.start]

theorem relays_record (h : c.Relays heard) {x : Moment σ} (hx : x.effect.Relays heard) :
    (c.record x).Relays heard := by
  intro y hy
  rcases Array.mem_push.mp hy with hold | rfl
  · exact h y hold
  · exact hx

theorem relays_emit (h : s.toContext.Relays heard) {e : Effect} (he : e.Relays heard) :
    (s.emit e).toContext.Relays heard := relays_record h he

theorem relays_asks (h : c.Relays heard) (asked : p.Asks c c') : c'.Relays heard := by
  rcases asked with rfl | ⟨t, rfl⟩
  · exact h
  · exact relays_record h trivial

theorem relays_takeValue (h : c.Relays heard) : (p.takeValue c).2.Relays heard :=
  relays_record h trivial

theorem relays_store (h : c.Relays heard) {b : Block} {added : Bool}
    (done : p.store c b = .ok (added, c')) : c'.Relays heard := by
  unfold store at done
  simp only [pure, Except.pure] at done
  obtain ⟨_, -, done⟩ := bind_eq_ok.mp done
  cases done
  exact relays_record h trivial

theorem relays_forwardAll (h : s.toContext.Relays heard) {bs : List Ballot}
    (hbs : ∀ b ∈ bs, b.toMessage.CarriesOnly heard) : (s.forwardAll bs).toContext.Relays heard := by
  induction bs generalizing s with
  | nil => exact h
  | cons b bs ih =>
    exact ih (relays_record h (hbs b List.mem_cons_self)) fun d hd =>
      hbs d (List.mem_cons_of_mem _ hd)

/-- Evidence is made of the votes that an epoch holds. -/
theorem Sound.carriesOnly_evidence {m : Machine} (hm : p.Sound heard m) (proposer : ProcessId)
    {b : Ballot} (hb : b ∈ m.evidence proposer) : b.toMessage.CarriesOnly heard := by
  unfold Machine.evidence at hb
  split at hb
  · obtain ⟨c, hc, hballot⟩ := List.mem_filterMap.mp hb
    have hheard := (hm.votes c (List.mem_filter.mp hc).1).2
    exact carriesOnly_of_mem_ballots hheard (Certificate.mem_ballots hballot)
  · cases hb

theorem relays_proposeSplit (h : s.toContext.Relays heard) (done : p.proposeSplit s = .ok s') :
    s'.toContext.Relays heard := by
  unfold proposeSplit at done
  simp only [pure, Except.pure] at done
  have hasked : (p.takeValue (p.takeValue s.toContext).2).2.Relays heard :=
    relays_takeValue (relays_takeValue h)
  split at done
  · simp only [bind_eq_ok] at done
    obtain ⟨a, -, b, -, done⟩ := done
    cases done
    refine relays_emit (relays_emit ?_ ?_) trivial
    · exact hasked
    · exact trivial
  · cases done
    exact hasked

/-! ### Moves -/

/-- **Every move of a sound epoch passes on only signatures that were heard.** -/
theorem Move.relays (move : p.Move heard s s') (hs : p.Sound heard s.machine)
    (h : s.toContext.Relays heard) : s'.toContext.Relays heard := by
  cases move with
  | schedule timers asked => exact relays_asks h asked
  | refuse asked => exact relays_store h asked
  | enlist fresh valid admitted asked => exact relays_store h asked
  | relay admitted => exact relays_record h admitted
  | expose turn fresh two =>
    refine relays_forwardAll ?_ fun b hb => hs.carriesOnly_evidence _ hb
    exact h
  | lock phase counted quorum | pass phase counted quorum lock =>
    refine relays_emit (relays_emit ?_ ?_) trivial
    · exact h
    · exact (hs.votes _ counted).2
  | commit | quit => exact relays_record h trivial
  | cast admitted votable =>
    refine relays_emit (relays_emit h ?_) trivial
    exact Proposal.carriesOnly_vote admitted
  | leave phase quorum => exact relays_record h hs.blame.2
  | accuse => exact relays_record h trivial
  | split faulty done => exact relays_proposeSplit h done
  | count | decide | follow | blame | abandon | expire => exact h

theorem Moves.relays (moves : p.Moves heard s s') (hs : p.Running heard s)
    (h : s.toContext.Relays heard) : s'.toContext.Relays heard := by
  induction moves with
  | refl => exact h
  | tail before move ih => exact move.relays (Moves.running before hs).sound ih

/-! ### Calls -/

variable {m : Machine}

theorem receive_relays (hm : p.Sound heard m ∨ m.phase = .finished) {x : Message}
    (admitted : x.CarriesOnly heard) (h : p.receive x ⟨c, m⟩ = .ok s') (hc : c.Relays heard) :
    s'.toContext.Relays heard := by
  by_cases inactive : m.phase = .inactive
  · obtain rfl := receive_inactive (s := ⟨c, m⟩) inactive h
    obtain ⟨pending, heq, -⟩ := keep_eq x ⟨c, m⟩
    rw [heq]
    exact hc
  · rcases hm with sound | finished
    · exact Moves.relays (receive_moves ⟨inactive, sound⟩ admitted h) ⟨inactive, sound⟩ hc
    · obtain rfl := receive_finished (s := ⟨c, m⟩) finished h
      exact hc

theorem expire_relays (hm : p.Sound heard m ∨ m.phase = .finished) {t : Timeout}
    (h : p.expire t ⟨c, m⟩ = .ok s') (hc : c.Relays heard) : s'.toContext.Relays heard := by
  by_cases idle : m.phase = .inactive ∨ m.phase = .finished
  · obtain rfl := expire_idle (s := ⟨c, m⟩) idle h
    exact hc
  · simp only [not_or] at idle
    have hmoves : p.Moves heard ⟨c, m⟩ s' := expire_moves h
    exact Moves.relays hmoves ⟨idle.1, hm.resolve_right idle.2⟩ hc

theorem propose_relays (h : s.toContext.Relays heard) (done : p.propose s = .ok s') :
    s'.toContext.Relays heard := by
  unfold propose at done
  simp only [pure, Except.pure] at done
  have hasked : (p.takeValue s.toContext).2.Relays heard := relays_takeValue h
  split at done
  · cases done
    exact hasked
  · obtain ⟨b, -, done⟩ := bind_eq_ok.mp done
    cases done
    exact relays_record hasked trivial

/-- An epoch that begins passes nothing on. -/
theorem begin_relays (h : s.toContext.Relays heard) (done : p.begin s = .ok s') :
    s'.toContext.Relays heard := by
  have hschedule : ∀ kind, (p.schedule kind s).toContext.Relays heard := by
    intro kind
    obtain ⟨c, timers, asked, heq⟩ := p.schedule_eq kind s
    rw [heq]
    exact relays_asks h asked
  unfold begin at done
  simp only [pure, Except.pure] at done
  obtain ⟨q, -, done⟩ := bind_eq_ok.mp done
  split at done
  · unfold lead at done
    simp only [pure, Except.pure] at done
    split at done
    · exact propose_relays h done
    · obtain ⟨follows, -, done⟩ := bind_eq_ok.mp done
      split at done
      · exact relays_proposeSplit h done
      · cases done
        exact hschedule _
  · cases done
    exact hschedule _

/-- Whatever it does once it has begun, an epoch passes on only signatures that were heard. -/
theorem begun_relays (hm : p.Sound heard m) {valid locked : Option Certificate}
    (hvalid : ∀ c ∈ valid, c.CarriesOnly heard) (hlocked : ∀ c ∈ locked, c.CarriesOnly heard)
    {b : Step σ} (hb : p.begin ⟨c, m.opened valid locked⟩ = .ok b) (hc : c.Relays heard)
    (h : p.Moves heard { b with machine.pending := [] } s') : s'.toContext.Relays heard := by
  have hbegun : b.toContext.Relays heard := begin_relays (s := ⟨c, _⟩) hc hb
  exact Moves.relays h (hm.begun hvalid hlocked hb) hbegun

theorem start_relays (hm : p.Waiting heard m) {valid locked : Option Certificate}
    (hvalid : ∀ c ∈ valid, c.CarriesOnly heard) (hlocked : ∀ c ∈ locked, c.CarriesOnly heard)
    (h : p.start valid locked ⟨c, m⟩ = .ok s') (hc : c.Relays heard) :
    s'.toContext.Relays heard := by
  rcases start_cases (s := ⟨c, m⟩) hm.inactive h with ⟨-, rfl⟩ | ⟨b, hb, hrest⟩
  · exact hc
  · have hrunning := hm.sound.begun hvalid hlocked hb
    exact begun_relays hm.sound hvalid hlocked hb hc (start_moves hrunning hm.sound.pending hrest)

end Host

end EpochConsensus
